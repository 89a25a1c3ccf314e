import Lox.Proofs.Grammar.Reads

/-!
# Programs are parsed exactly as they derive

A token list is parsed without errors exactly if it derives from the grammar, and the
trees are those of the derivation.

* `reads_statement_iff` — a statement is read exactly if it derives: induction on the
  levels of nesting, with one lemma for each form of statement.
* `batch_iff` — a list of declarations is read exactly if it derives.
* `parse_eq_iff_derives` — the same for whole programs, and the trees are unique.
-/

namespace Lox

namespace Grammar

open Rule

variable {n : Nat} {ts rest : List Token}

/-! ## Clauses -/

/-- An expression before a semicolon or a closing parenthesis. -/
theorem reads_expression_iff {t : Token} {e : Expr}
    (ht : t.kind = .semicolon ∨ t.kind = .rightParen) :
    (rules n).expression.Reads ts e (t :: rest) ↔
      ∃ w, ts = w ++ t :: rest ∧ Derives n .expression w e := by
  rw [show (rules n).expression = Phrase.expression.rule (rules n) from rfl, reads_rule_iff]
  constructor
  · rintro ⟨w, hw, hd, -⟩
    exact ⟨w, hw, hd⟩
  · rintro ⟨w, hw, hd⟩
    exact ⟨w, hw, hd, Phrase.clear_closing ht rest⟩

theorem VarDeclaration.head {w : List Token} {s : Stmt} (h : VarDeclaration n w s) :
    ∃ k r, w = k :: r ∧ k.kind = .varWord := by
  cases h with
  | bare hk => exact ⟨_, _, rfl, hk⟩
  | initial hk => exact ⟨_, _, rfl, hk⟩

theorem reads_varDeclaration_iff {k : Token} (hk : k.kind = .varWord) {s : Stmt} :
    (varDeclaration (rules n)).Reads ts s rest ↔
      ∃ w, ts = w ++ rest ∧ VarDeclaration n (k :: w) s := by
  rw [varDeclaration]
  simp only [lift_eq, reads_bind, reads_expect]
  constructor
  · rintro ⟨x, _, ⟨rfl, hx⟩, o, mid, ho, hfin⟩
    cases o with
    | none =>
      obtain ⟨rfl, -⟩ := reads_accept_none.1 ho
      simp only [reads_bind, reads_pure, reads_expectAfter] at hfin
      obtain ⟨_, _, ⟨rfl, rfl⟩, semi, _, ⟨rfl, hs⟩, rfl, rfl⟩ := hfin
      exact ⟨[x, semi], rfl, .bare hk hx hs⟩
    | some sign =>
      obtain ⟨rfl, he⟩ := reads_accept_some.1 ho
      simp only [reads_bind, reads_map, reads_pure, reads_expectAfter] at hfin
      obtain ⟨_, _, ⟨e, hread, rfl⟩, semi, _, ⟨rfl, hs⟩, rfl, rfl⟩ := hfin
      obtain ⟨w, rfl, hd⟩ := (reads_expression_iff (.inl hs)).1 hread
      exact ⟨x :: sign :: w ++ [semi], by simp, .initial hk hx he hd hs⟩
  · rintro ⟨w, rfl, h⟩
    cases h with
    | @bare k x semi hk hx hs =>
      refine ⟨x, semi :: rest, ⟨rfl, hx⟩, none, semi :: rest, ?_, ?_⟩
      · exact reads_accept_none.2 ⟨rfl, by simp [hs]⟩
      · simp only [reads_bind, reads_pure, reads_expectAfter]
        exact ⟨none, _, ⟨rfl, rfl⟩, semi, rest, ⟨rfl, hs⟩, rfl, rfl⟩
    | @initial k x sign semi w e hk hx he value hs =>
      have hread : (rules n).expression.Reads (w ++ semi :: rest) e (semi :: rest) :=
        (reads_expression_iff (.inl hs)).2 ⟨w, rfl, value⟩
      refine ⟨x, sign :: (w ++ semi :: rest), ⟨by simp, hx⟩, some sign, w ++ semi :: rest, ?_, ?_⟩
      · exact reads_accept_some.2 ⟨rfl, he⟩
      · simp only [reads_bind, reads_map, reads_pure, reads_expectAfter]
        exact ⟨some e, _, ⟨e, hread, rfl⟩, semi, rest, ⟨rfl, hs⟩, rfl, rfl⟩

theorem reads_expressionStatement_iff {s : Stmt} :
    (expressionStatement (rules n)).Reads ts s rest ↔
      ∃ w e semi, ts = w ++ semi :: rest ∧ Derives n .expression w e ∧
        semi.kind = .semicolon ∧ s = .expression e := by
  rw [expressionStatement]
  simp only [lift_eq, reads_bind, reads_expectAfter, reads_pure]
  constructor
  · rintro ⟨e, _, hread, semi, _, ⟨rfl, hs⟩, rfl, rfl⟩
    obtain ⟨w, rfl, hd⟩ := (reads_expression_iff (.inl hs)).1 hread
    exact ⟨w, e, semi, rfl, hd, hs, rfl⟩
  · rintro ⟨w, e, semi, rfl, hd, hs, rfl⟩
    exact ⟨e, semi :: rest, (reads_expression_iff (.inl hs)).2 ⟨w, rfl, hd⟩, semi, rest,
      ⟨rfl, hs⟩, rfl, rfl⟩

theorem reads_printStatement_iff {s : Stmt} :
    (printStatement (rules n)).Reads ts s rest ↔
      ∃ w e semi, ts = w ++ semi :: rest ∧ Derives n .expression w e ∧
        semi.kind = .semicolon ∧ s = .print e := by
  rw [printStatement]
  simp only [lift_eq, reads_bind, reads_expectAfter, reads_pure]
  constructor
  · rintro ⟨e, _, hread, semi, _, ⟨rfl, hs⟩, rfl, rfl⟩
    obtain ⟨w, rfl, hd⟩ := (reads_expression_iff (.inl hs)).1 hread
    exact ⟨w, e, semi, rfl, hd, hs, rfl⟩
  · rintro ⟨w, e, semi, rfl, hd, hs, rfl⟩
    exact ⟨e, semi :: rest, (reads_expression_iff (.inl hs)).2 ⟨w, rfl, hd⟩, semi, rest,
      ⟨rfl, hs⟩, rfl, rfl⟩

/-- No expression begins with a token of one of these kinds. -/
theorem Derives.head_ne {w : List Token} {p : Phrase} {e : Expr} (h : Derives n p w e)
    (after : List Token) {kind : Kind} (hkind : kind ∉ Phrase.expression.openers) :
    ∀ t ∈ (w ++ after).head?, t.kind ≠ kind := by
  obtain ⟨t, r, rfl, ht⟩ := h.head
  have hopen : t.kind ∈ Phrase.expression.openers :=
    Phrase.openers_subset .expression p (by decide) ht
  simp only [List.cons_append, List.head?_cons, Option.mem_def, Option.some.injEq]
  rintro u rfl rfl
  exact hkind hopen

theorem reads_forInitial_iff {o : Option Stmt} :
    (forInitial (rules n)).Reads ts o rest ↔ ∃ w, ts = w ++ rest ∧ Initializer n w o := by
  rw [forInitial]
  simp only [lift_eq, reads_bind]
  constructor
  · rintro ⟨a, mid, ha, hfin⟩
    cases a with
    | some semi =>
      obtain ⟨rfl, hs⟩ := reads_accept_some.1 ha
      obtain ⟨rfl, rfl⟩ := reads_pure.1 hfin
      exact ⟨[semi], rfl, .absent hs⟩
    | none =>
      obtain ⟨rfl, -⟩ := reads_accept_none.1 ha
      obtain ⟨b, last, hb, hnext⟩ := reads_bind.1 hfin
      cases b with
      | some k =>
        obtain ⟨rfl, hk⟩ := reads_accept_some.1 hb
        obtain ⟨s, _, hread, hend⟩ := reads_bind.1 hnext
        obtain ⟨rfl, rfl⟩ := reads_pure.1 hend
        obtain ⟨w, rfl, hd⟩ := (reads_varDeclaration_iff hk).1 hread
        exact ⟨k :: w, rfl, .declared hd⟩
      | none =>
        obtain ⟨rfl, -⟩ := reads_accept_none.1 hb
        obtain ⟨s, _, hread, hend⟩ := reads_bind.1 hnext
        obtain ⟨rfl, rfl⟩ := reads_pure.1 hend
        obtain ⟨w, e, semi, rfl, hd, hs, rfl⟩ := reads_expressionStatement_iff.1 hread
        exact ⟨w ++ [semi], by simp, .expression hd hs⟩
  · rintro ⟨w, rfl, h⟩
    cases h with
    | @absent semi hs =>
      exact ⟨some semi, rest, reads_accept_some.2 ⟨rfl, hs⟩, reads_pure.2 ⟨rfl, rfl⟩⟩
    | @declared w s whole =>
      obtain ⟨k, r, rfl, hk⟩ := whole.head
      have hread : (varDeclaration (rules n)).Reads (r ++ rest) s rest :=
        (reads_varDeclaration_iff hk).2 ⟨r, rfl, whole⟩
      refine ⟨none, k :: (r ++ rest), reads_accept_none.2 ⟨rfl, by simp [hk]⟩, ?_⟩
      refine reads_bind.2 ⟨some k, r ++ rest, reads_accept_some.2 ⟨rfl, hk⟩, ?_⟩
      exact reads_bind.2 ⟨s, rest, hread, reads_pure.2 ⟨rfl, rfl⟩⟩
    | @expression w e semi value hs =>
      rw [List.append_assoc]
      have hread : (expressionStatement (rules n)).Reads (w ++ ([semi] ++ rest)) (.expression e)
          rest := reads_expressionStatement_iff.2 ⟨w, e, semi, rfl, value, hs, rfl⟩
      refine ⟨none, _, reads_accept_none.2 ⟨rfl, value.head_ne _ (by decide)⟩, ?_⟩
      refine reads_bind.2 ⟨none, _, reads_accept_none.2 ⟨rfl, value.head_ne _ (by decide)⟩, ?_⟩
      exact reads_bind.2 ⟨.expression e, rest, hread, reads_pure.2 ⟨rfl, rfl⟩⟩

/-- A clause before the token that closes it. -/
theorem reads_optional_iff {t : Token} {closing : Kind} {o : Option Expr} (ht : t.kind = closing)
    (hc : closing = .semicolon ∨ closing = .rightParen) :
    (Grammar.optional (rules n) closing).Reads ts o (t :: rest) ↔
      ∃ w, ts = w ++ t :: rest ∧ Clause n w o := by
  have ht' : t.kind = .semicolon ∨ t.kind = .rightParen := by rwa [ht]
  rw [Grammar.optional]
  simp only [lift_eq, reads_bind, reads_nextKind]
  constructor
  · rintro ⟨_, _, ⟨rfl, rfl⟩, hfin⟩
    split at hfin
    · obtain ⟨rfl, rfl⟩ := reads_pure.1 hfin
      exact ⟨[], rfl, .absent⟩
    · obtain ⟨e, _, hread, hend⟩ := reads_bind.1 hfin
      obtain ⟨rfl, rfl⟩ := reads_pure.1 hend
      obtain ⟨w, rfl, hd⟩ := (reads_expression_iff ht').1 hread
      exact ⟨w, rfl, .present hd⟩
  · rintro ⟨w, rfl, h⟩
    refine ⟨_, _, ⟨rfl, rfl⟩, ?_⟩
    cases h with
    | absent =>
      rw [if_pos (by simpa [peek] using ht)]
      exact reads_pure.2 ⟨rfl, rfl⟩
    | @present w e value =>
      have hne : (peek (w ++ t :: rest)).kind ≠ closing := by
        obtain ⟨u, r, rfl, hu⟩ := value.head
        refine value.head_ne (t :: rest) ?_ u rfl
        rcases hc with rfl | rfl <;> decide
      rw [if_neg hne]
      exact reads_bind.2 ⟨e, _, (reads_expression_iff ht').2 ⟨w, rfl, value⟩,
        reads_pure.2 ⟨rfl, rfl⟩⟩

theorem countingTree_eq (initial : Option Stmt) (condition step : Option Expr) (body : Stmt) :
    countingTree initial condition step body = .counting initial condition step body := by
  cases initial <;> cases step <;> rfl

/-! ## How statements begin -/

/-- No declaration begins with the end of a list of declarations, and only a variable
declaration begins with its word. -/
theorem Statement.head {w after : List Token} {s : Stmt} (h : Statement n w after s) :
    ∃ t r, w = t :: r ∧ t.kind ≠ .varWord ∧ t.kind ≠ .rightBrace ∧ t.kind ≠ .eof := by
  cases h with
  | @expression n w after e semi value hs =>
    obtain ⟨t, r, rfl, ht⟩ := value.head
    refine ⟨t, r ++ [semi], rfl, ?_, ?_, ?_⟩ <;> rintro hk <;> rw [hk] at ht <;> revert ht <;>
      decide
  | print hk => exact ⟨_, _, rfl, by simp [hk], by simp [hk], by simp [hk]⟩
  | block hk => exact ⟨_, _, rfl, by simp [hk], by simp [hk], by simp [hk]⟩
  | choice hk => exact ⟨_, _, rfl, by simp [hk], by simp [hk], by simp [hk]⟩
  | choiceElse hk => exact ⟨_, _, rfl, by simp [hk], by simp [hk], by simp [hk]⟩
  | loop hk => exact ⟨_, _, rfl, by simp [hk], by simp [hk], by simp [hk]⟩
  | counting hk => exact ⟨_, _, rfl, by simp [hk], by simp [hk], by simp [hk]⟩

theorem Declaration.head {w after : List Token} {s : Stmt} (h : Declaration n w after s) :
    ∃ t r, w = t :: r ∧ t.kind ≠ .rightBrace ∧ t.kind ≠ .eof := by
  cases h with
  | declared whole =>
    obtain ⟨k, r, rfl, hk⟩ := whole.head
    exact ⟨k, r, rfl, by simp [hk], by simp [hk]⟩
  | statement whole =>
    obtain ⟨t, r, rfl, -, hb, he⟩ := whole.head
    exact ⟨t, r, rfl, hb, he⟩

/-! ## Lists of declarations -/

/-- The statements of a level are read exactly if they derive. -/
def StatementsRead (n : Nat) : Prop :=
  ∀ ts s rest, (rules n).statement.Reads ts s rest ↔ ∃ w, ts = w ++ rest ∧ Statement n w rest s

theorem reads_declaration_iff (hS : StatementsRead n) {s : Stmt} :
    (declaration (rules n)).Reads ts s rest ↔ ∃ w, ts = w ++ rest ∧ Declaration n w rest s := by
  rw [declaration, reads_bind]
  constructor
  · rintro ⟨o, mid, ho, hfin⟩
    cases o with
    | some k =>
      obtain ⟨rfl, hk⟩ := reads_accept_some.1 ho
      obtain ⟨w, rfl, hd⟩ := (reads_varDeclaration_iff hk).1 hfin
      exact ⟨k :: w, rfl, .declared hd⟩
    | none =>
      obtain ⟨rfl, -⟩ := reads_accept_none.1 ho
      obtain ⟨w, rfl, hd⟩ := (hS _ _ _).1 hfin
      exact ⟨w, rfl, .statement hd⟩
  · rintro ⟨w, rfl, h⟩
    cases h with
    | declared whole =>
      obtain ⟨k, r, rfl, hk⟩ := whole.head
      exact ⟨some k, r ++ rest, reads_accept_some.2 ⟨rfl, hk⟩,
        (reads_varDeclaration_iff hk).2 ⟨r, rfl, whole⟩⟩
    | statement whole =>
      have hread : (rules n).statement.Reads (w ++ rest) s rest := (hS _ _ _).2 ⟨w, rfl, whole⟩
      obtain ⟨t, r, rfl, hne, -, -⟩ := whole.head
      exact ⟨none, _, reads_accept_none.2 ⟨rfl, by simpa using hne⟩, hread⟩

/-- One turn of a list of declarations, without errors. -/
theorem attempt_andThen_eq {d : Rule Stmt} {read : List Token → Batch} {ss : List Stmt} :
    (attempt d ts).andThen read = ⟨ss, [], rest⟩ ↔
      ∃ s ss' mid, d.Reads ts s mid ∧ read mid = ⟨ss', [], rest⟩ ∧ ss = s :: ss' := by
  rw [attempt_eq]
  cases hd : d ts with
  | failed e es mid => simp [Batch.andThen, Rule.Reads, hd]
  | parsed s es mid =>
    simp only [Batch.andThen, Rule.Reads, hd, Batch.mk.injEq, List.append_eq_nil_iff,
      List.singleton_append, Reply.parsed.injEq]
    constructor
    · rintro ⟨hss, ⟨hes, herr⟩, hrest⟩
      refine ⟨s, (read mid).statements, mid, ⟨rfl, hes, rfl⟩, ?_, hss.symm⟩
      rw [← herr, ← hrest]
    · rintro ⟨s', ss', mid', ⟨rfl, rfl, rfl⟩, hread, rfl⟩
      simp [hread]

/-- A list of declarations up to a closing token is read exactly if it derives. -/
theorem batch_iff (hS : StatementsRead n) {stop : Kind → Bool} (heof : stop .eof = true)
    (hstop : ∀ k, stop k = true → k = .rightBrace ∨ k = .eof) {ss : List Stmt} :
    batch stop (declaration (rules n)) ts = ⟨ss, [], rest⟩ ↔
      ∃ w, ts = w ++ rest ∧ Declarations n w rest ss ∧ stop (peek rest).kind = true := by
  have hadv := advances_declaration (advances_rules n)
  have htakes := takes_declaration (advances_rules n)
  induction ss generalizing ts with
  | nil =>
    rw [batch_eq heof hadv htakes]
    split
    next hk =>
      constructor
      · intro h
        cases h
        exact ⟨[], rfl, .nil, hk⟩
      · rintro ⟨w, rfl, hd, -⟩
        cases hd
        rfl
    next hk =>
      rw [attempt_andThen_eq]
      constructor
      · rintro ⟨s, ss', mid, -, -, h⟩
        cases h
      · rintro ⟨w, rfl, hd, hk'⟩
        cases hd
        exact absurd hk' hk
  | cons s ss ih =>
    rw [batch_eq heof hadv htakes]
    split
    next hk =>
      constructor
      · intro h
        cases h
      · rintro ⟨w, rfl, hd, -⟩
        -- no declaration begins where the list would stop
        cases hd with
        | cons first _ =>
          obtain ⟨t, r, rfl, hb, he⟩ := first.head
          rcases hstop _ hk with h | h
          · exact absurd h hb
          · exact absurd h he
    next hk =>
      rw [attempt_andThen_eq]
      constructor
      · rintro ⟨s', ss', mid, hread, hrest, h⟩
        cases h
        obtain ⟨v, rfl, hd, hk'⟩ := ih.1 hrest
        obtain ⟨u, rfl, hfirst⟩ := (reads_declaration_iff hS).1 hread
        exact ⟨u ++ v, by simp, .cons hfirst hd, hk'⟩
      · rintro ⟨w, rfl, hd, hk'⟩
        cases hd with
        | @cons _ u v _ _ _ first last =>
          refine ⟨s, ss, v ++ rest, ?_, ih.2 ⟨v, rfl, last, hk'⟩, rfl⟩
          exact (reads_declaration_iff hS).2 ⟨u, by simp, first⟩

/-! ## Forms of statements -/

theorem reads_blockStatement_iff (hS : StatementsRead n) {s : Stmt} :
    (blockStatement (rules n)).Reads ts s rest ↔
      ∃ w ss c, ts = w ++ c :: rest ∧ Declarations n w (c :: rest) ss ∧
        c.kind = .rightBrace ∧ s = .block ss := by
  have heof : endsBlock .eof = true := rfl
  have hstop : ∀ k, endsBlock k = true → k = .rightBrace ∨ k = .eof := by simp [endsBlock]
  have hbody : ∀ ss mid, (blockBody (rules n)).Reads ts ss mid ↔
      batch endsBlock (declaration (rules n)) ts = ⟨ss, [], mid⟩ := by
    intro ss mid
    cases hb : batch endsBlock (declaration (rules n)) ts
    simp [Rule.Reads, blockBody_apply, Batch.reply, hb]
  rw [blockStatement]
  simp only [lift_eq, reads_bind, reads_expectAfter, reads_pure, hbody]
  constructor
  · rintro ⟨ss, _, hb, c, _, ⟨rfl, hc⟩, rfl, rfl⟩
    obtain ⟨w, rfl, hd, -⟩ := (batch_iff hS heof hstop).1 hb
    exact ⟨w, ss, c, rfl, hd, hc, rfl⟩
  · rintro ⟨w, ss, c, rfl, hd, hc, rfl⟩
    have hk : endsBlock (peek (c :: rest)).kind = true := by simp [endsBlock, peek, hc]
    exact ⟨ss, c :: rest, (batch_iff hS heof hstop).2 ⟨w, rfl, hd, hk⟩, c, rest, ⟨rfl, hc⟩, rfl,
      rfl⟩

theorem ifStatement_sound (hS : StatementsRead n) {k : Token} (hk : k.kind = .ifWord) {s : Stmt}
    (h : (ifStatement (rules n)).Reads ts s rest) :
    ∃ w, ts = w ++ rest ∧ Statement (n + 1) (k :: w) rest s := by
  rw [ifStatement] at h
  simp only [lift_eq, reads_bind, reads_expectAfter] at h
  obtain ⟨o, _, ⟨rfl, ho⟩, e, _, he, c, _, ⟨rfl, hc⟩, yes, mid, hy, a, last, ha, hfin⟩ := h
  obtain ⟨w, rfl, hcond⟩ := (reads_expression_iff (.inr hc)).1 he
  obtain ⟨u, rfl, hyes⟩ := (hS _ _ _).1 hy
  cases a with
  | none =>
    obtain ⟨rfl, halone⟩ := reads_accept_none.1 ha
    obtain ⟨rfl, rfl⟩ := reads_pure.1 hfin
    exact ⟨o :: w ++ c :: u, by simp, .choice hk ho hcond hc hyes halone⟩
  | some k' =>
    obtain ⟨rfl, hk'⟩ := reads_accept_some.1 ha
    obtain ⟨no, _, hn, hend⟩ := reads_bind.1 hfin
    obtain ⟨rfl, rfl⟩ := reads_pure.1 hend
    obtain ⟨v, rfl, hno⟩ := (hS _ _ _).1 hn
    exact ⟨o :: w ++ c :: u ++ k' :: v, by simp, .choiceElse hk ho hcond hc hyes hk' hno⟩

theorem whileStatement_sound (hS : StatementsRead n) {k : Token} (hk : k.kind = .whileWord)
    {s : Stmt} (h : (whileStatement (rules n)).Reads ts s rest) :
    ∃ w, ts = w ++ rest ∧ Statement (n + 1) (k :: w) rest s := by
  rw [whileStatement] at h
  simp only [lift_eq, reads_bind, reads_expectAfter, reads_pure] at h
  obtain ⟨o, _, ⟨rfl, ho⟩, e, _, he, c, _, ⟨rfl, hc⟩, body, _, hb, rfl, rfl⟩ := h
  obtain ⟨w, rfl, hcond⟩ := (reads_expression_iff (.inr hc)).1 he
  obtain ⟨u, rfl, hbody⟩ := (hS _ _ _).1 hb
  exact ⟨o :: w ++ c :: u, by simp, .loop hk ho hcond hc hbody⟩

/-- What is read as a counting loop has its parts in the text. -/
theorem forStatement_parts (hS : StatementsRead n) {s : Stmt}
    (h : (forStatement (rules n)).Reads ts s rest) :
    ∃ o i w semi v c u initial condition step body,
      ts = o :: i ++ w ++ semi :: v ++ c :: u ++ rest ∧ o.kind = .leftParen ∧
      Initializer n i initial ∧ Clause n w condition ∧ semi.kind = .semicolon ∧
      Clause n v step ∧ c.kind = .rightParen ∧ Statement n u rest body ∧
      s = .counting initial condition step body := by
  rw [forStatement] at h
  simp only [lift_eq, reads_bind, reads_expectAfter, reads_pure] at h
  obtain ⟨o, _, ⟨rfl, ho⟩, initial, _, hi, condition, _, hcond, semi, _, ⟨rfl, hs⟩, step, _,
    hstep, c, _, ⟨rfl, hc⟩, body, _, hb, rfl, rfl⟩ := h
  obtain ⟨i, rfl, hfirst⟩ := reads_forInitial_iff.1 hi
  obtain ⟨w, rfl, hsecond⟩ := (reads_optional_iff hs (.inl rfl)).1 hcond
  obtain ⟨v, rfl, hthird⟩ := (reads_optional_iff hc (.inr rfl)).1 hstep
  obtain ⟨u, rfl, hbody⟩ := (hS _ _ _).1 hb
  exact ⟨o, i, w, semi, v, c, u, initial, condition, step, body, by simp, ho, hfirst, hsecond, hs,
    hthird, hc, hbody, rfl⟩

theorem forStatement_sound (hS : StatementsRead n) {k : Token} (hk : k.kind = .forWord)
    {s : Stmt} (h : (forStatement (rules n)).Reads ts s rest) :
    ∃ w, ts = w ++ rest ∧ Statement (n + 1) (k :: w) rest s := by
  obtain ⟨o, i, w, semi, v, c, u, initial, condition, step, body, rfl, ho, hfirst, hsecond, hs,
    hthird, hc, hbody, rfl⟩ := forStatement_parts hS h
  refine ⟨o :: i ++ w ++ semi :: v ++ c :: u, rfl, ?_⟩
  rw [← countingTree_eq]
  exact .counting hk ho hfirst hsecond hs hthird hc hbody

/-- Whatever is read as a statement derives. -/
theorem statement_sound (hS : StatementsRead n) {s : Stmt}
    (h : (statement (rules n)).Reads ts s rest) :
    ∃ w, ts = w ++ rest ∧ Statement (n + 1) w rest s := by
  have hexpr : (expressionStatement (rules n)).Reads ts s rest →
      ∃ w, ts = w ++ rest ∧ Statement (n + 1) w rest s := by
    intro h
    obtain ⟨w, e, semi, rfl, hd, hs, rfl⟩ := reads_expressionStatement_iff.1 h
    exact ⟨w ++ [semi], by simp, .expression hd hs⟩
  cases ts with
  | nil =>
    rw [Rule.Reads, statement_nil] at h
    exact hexpr h
  | cons t ts =>
    rw [Rule.Reads, statement_cons] at h
    split at h
    next hk =>
      obtain ⟨w, rfl, hd⟩ := forStatement_sound hS hk h
      exact ⟨t :: w, rfl, hd⟩
    next hk =>
      obtain ⟨w, rfl, hd⟩ := ifStatement_sound hS hk h
      exact ⟨t :: w, rfl, hd⟩
    next hk =>
      obtain ⟨w, e, semi, rfl, hd, hs, rfl⟩ := reads_printStatement_iff.1 h
      exact ⟨t :: w ++ [semi], by simp, .print hk hd hs⟩
    next hk =>
      obtain ⟨w, rfl, hd⟩ := whileStatement_sound hS hk h
      exact ⟨t :: w, rfl, hd⟩
    next hk =>
      obtain ⟨w, ss, c, rfl, hd, hc, rfl⟩ := (reads_blockStatement_iff hS).1 h
      exact ⟨t :: w ++ [c], by simp, .block hk hd hc⟩
    next => exact hexpr h

/-- Every derivation of a statement is read. -/
theorem statement_complete (hS : StatementsRead n) {w : List Token} {s : Stmt}
    (h : Statement (n + 1) w rest s) : (statement (rules n)).Reads (w ++ rest) s rest := by
  cases h with
  | @expression _ w _ e semi value hs =>
    have hread : (expressionStatement (rules n)).Reads (w ++ semi :: rest) (.expression e) rest :=
      reads_expressionStatement_iff.2 ⟨w, e, semi, rfl, value, hs, rfl⟩
    have hne : ∀ {kind : Kind}, kind ∉ Phrase.expression.openers →
        ∀ t ∈ (w ++ [semi] ++ rest).head?, t.kind ≠ kind := by
      intro kind hkind
      rw [List.append_assoc]
      exact value.head_ne _ hkind
    obtain ⟨t, r, rfl, ht⟩ := value.head
    rw [Rule.Reads, List.append_assoc, List.cons_append, statement_cons]
    split
    next hk => exact absurd hk (hne (by decide) t rfl)
    next hk => exact absurd hk (hne (by decide) t rfl)
    next hk => exact absurd hk (hne (by decide) t rfl)
    next hk => exact absurd hk (hne (by decide) t rfl)
    next hk => exact absurd hk (hne (by decide) t rfl)
    next => exact hread
  | @print _ w _ e k semi hk value hs =>
    have hread : (printStatement (rules n)).Reads (w ++ semi :: rest) (.print e) rest :=
      reads_printStatement_iff.2 ⟨w, e, semi, rfl, value, hs, rfl⟩
    simpa [Rule.Reads, statement_cons, hk] using hread
  | @block _ w _ ss o c ho body hc =>
    have hread : (blockStatement (rules n)).Reads (w ++ c :: rest) (.block ss) rest :=
      (reads_blockStatement_iff hS).2 ⟨w, ss, c, rfl, body, hc, rfl⟩
    simpa [Rule.Reads, statement_cons, ho] using hread
  | @choice _ w u _ e s k o c hk ho condition hc yes alone =>
    have hcond : (rules n).expression.Reads (w ++ c :: (u ++ rest)) e (c :: (u ++ rest)) :=
      (reads_expression_iff (.inr hc)).2 ⟨w, rfl, condition⟩
    have hyes := (hS (u ++ rest) s rest).2 ⟨u, rfl, yes⟩
    have hread : (ifStatement (rules n)).Reads (o :: (w ++ c :: (u ++ rest))) (.branch e s none)
        rest := by
      rw [ifStatement]
      simp only [lift_eq, reads_bind, reads_expectAfter]
      exact ⟨o, _, ⟨rfl, ho⟩, e, _, hcond, c, _, ⟨rfl, hc⟩, s, rest, hyes, none, rest,
        reads_accept_none.2 ⟨rfl, alone⟩, reads_pure.2 ⟨rfl, rfl⟩⟩
    simpa [Rule.Reads, statement_cons, hk] using hread
  | @choiceElse _ w u v _ e s s' k o c k' hk ho condition hc yes hk' no =>
    have hcond : (rules n).expression.Reads (w ++ c :: (u ++ k' :: (v ++ rest))) e
        (c :: (u ++ k' :: (v ++ rest))) := (reads_expression_iff (.inr hc)).2 ⟨w, rfl, condition⟩
    have hyes := (hS (u ++ k' :: (v ++ rest)) s (k' :: (v ++ rest))).2 ⟨u, rfl, yes⟩
    have hno := (hS (v ++ rest) s' rest).2 ⟨v, rfl, no⟩
    have hread : (ifStatement (rules n)).Reads (o :: (w ++ c :: (u ++ k' :: (v ++ rest))))
        (.branch e s (some s')) rest := by
      rw [ifStatement]
      simp only [lift_eq, reads_bind, reads_expectAfter]
      refine ⟨o, _, ⟨rfl, ho⟩, e, _, hcond, c, _, ⟨rfl, hc⟩, s, _, hyes, some k', _,
        reads_accept_some.2 ⟨rfl, hk'⟩, ?_⟩
      exact reads_bind.2 ⟨s', rest, hno, reads_pure.2 ⟨rfl, rfl⟩⟩
    simpa [Rule.Reads, statement_cons, hk] using hread
  | @loop _ w u _ e s k o c hk ho condition hc body =>
    have hcond : (rules n).expression.Reads (w ++ c :: (u ++ rest)) e (c :: (u ++ rest)) :=
      (reads_expression_iff (.inr hc)).2 ⟨w, rfl, condition⟩
    have hbody := (hS (u ++ rest) s rest).2 ⟨u, rfl, body⟩
    have hread : (whileStatement (rules n)).Reads (o :: (w ++ c :: (u ++ rest))) (.loop e s)
        rest := by
      rw [whileStatement]
      simp only [lift_eq, reads_bind, reads_expectAfter, reads_pure]
      exact ⟨o, _, ⟨rfl, ho⟩, e, _, hcond, c, _, ⟨rfl, hc⟩, s, rest, hbody, rfl, rfl⟩
    simpa [Rule.Reads, statement_cons, hk] using hread
  | @counting _ i w v u _ initial condition step s k o semi c hk ho first second hs third hc
      body =>
    have hbody := (hS (u ++ rest) s rest).2 ⟨u, rfl, body⟩
    have hthird : (Grammar.optional (rules n) .rightParen).Reads (v ++ c :: (u ++ rest)) step
        (c :: (u ++ rest)) := (reads_optional_iff hc (.inr rfl)).2 ⟨v, rfl, third⟩
    have hsecond : (Grammar.optional (rules n) .semicolon).Reads
        (w ++ semi :: (v ++ c :: (u ++ rest))) condition (semi :: (v ++ c :: (u ++ rest))) :=
      (reads_optional_iff hs (.inl rfl)).2 ⟨w, rfl, second⟩
    have hfirst : (forInitial (rules n)).Reads (i ++ (w ++ semi :: (v ++ c :: (u ++ rest))))
        initial (w ++ semi :: (v ++ c :: (u ++ rest))) := reads_forInitial_iff.2 ⟨i, rfl, first⟩
    have hread : (forStatement (rules n)).Reads
        (o :: (i ++ (w ++ semi :: (v ++ c :: (u ++ rest)))))
        (countingTree initial condition step s) rest := by
      rw [forStatement, countingTree_eq]
      simp only [lift_eq, reads_bind, reads_expectAfter, reads_pure]
      exact ⟨o, _, ⟨rfl, ho⟩, initial, _, hfirst, condition, _, hsecond, semi, _, ⟨rfl, hs⟩,
        step, _, hthird, c, _, ⟨rfl, hc⟩, s, rest, hbody, rfl, rfl⟩
    simpa [Rule.Reads, statement_cons, hk] using hread

/-- **Statements are read exactly if they derive**, at every level of nesting. -/
theorem reads_statement_iff (n : Nat) : StatementsRead n := by
  induction n with
  | zero =>
    intro ts s rest
    constructor
    · intro h
      exact absurd h not_reads_fail
    · rintro ⟨w, -, h⟩
      cases h
  | succ n ih =>
    intro ts s rest
    constructor
    · exact statement_sound ih
    · rintro ⟨w, rfl, h⟩
      exact statement_complete ih h

/-! ## Programs -/

/-- Where the input ends behind `w`, it is read up to there. -/
theorem parseWithin_iff_of_ends {n : Nat} {w after : List Token} {ss : List Stmt}
    (hw : ∀ t ∈ w, t.kind ≠ .eof) (hafter : (peek after).kind = .eof) :
    parseWithin n (w ++ after) = ⟨ss, []⟩ ↔ Declarations n w after ss := by
  have hstop : ∀ k, endsProgram k = true → k = .rightBrace ∨ k = .eof := by simp [endsProgram]
  have hbatch : parseWithin n (w ++ after) = ⟨ss, []⟩ ↔
      ∃ rest, batch endsProgram (declaration (rules n)) (w ++ after) = ⟨ss, [], rest⟩ := by
    rw [parseWithin]
    cases batch endsProgram (declaration (rules n)) (w ++ after)
    simp [Batch.program]
  rw [hbatch]
  constructor
  · rintro ⟨rest, h⟩
    have hleft : Leaves (w ++ after) rest := by
      have hbody := leaves_batch endsProgram (advances_declaration (advances_rules n)) (w ++ after)
      rwa [h] at hbody
    obtain ⟨v, hv, hd, hk⟩ := (batch_iff (reads_statement_iff n) rfl hstop).1 h
    obtain rfl := hleft.eq_of_ends hw hafter (by simpa [endsProgram] using hk)
    rwa [List.append_cancel_right hv]
  · intro h
    refine ⟨after, (batch_iff (reads_statement_iff n) rfl hstop).2 ⟨w, rfl, h, ?_⟩⟩
    simpa [endsProgram] using hafter

theorem parseWithin_iff {n : Nat} {w : List Token} {eof : Token} {ss : List Stmt}
    (hw : ∀ t ∈ w, t.kind ≠ .eof) (heof : eof.kind = .eof) :
    parseWithin n (w ++ [eof]) = ⟨ss, []⟩ ↔ Declarations n w [eof] ss :=
  parseWithin_iff_of_ends hw heof

/-! ## Single expressions -/

theorem parseExpressionWithin_eq_ok {e : Expr} :
    parseExpressionWithin n ts = .ok e ↔
      ∃ rest, (rules n).expression.Reads ts e rest ∧ (peek rest).kind = .eof := by
  unfold parseExpressionWithin conclude Rule.Reads
  split
  next h => simp [h]
  next h => simp [h]
  next e' rest h =>
    rw [h]
    by_cases hk : (peek rest).kind = .eof
    · rw [if_pos hk]
      constructor
      · intro he
        cases he
        exact ⟨rest, rfl, hk⟩
      · rintro ⟨rest', he, -⟩
        cases he
        rfl
    · rw [if_neg hk]
      constructor
      · intro he
        cases he
      · rintro ⟨rest', he, hk'⟩
        cases he
        exact absurd hk' hk

/-- Where the input ends behind `w`, it is parsed as an expression exactly if `w` derives one. -/
theorem parseExpressionWithin_iff_of_ends {w after : List Token} {e : Expr}
    (hw : ∀ t ∈ w, t.kind ≠ .eof) (hafter : (peek after).kind = .eof) :
    parseExpressionWithin n (w ++ after) = .ok e ↔ Derives n .expression w e := by
  have hrule : (rules n).expression = Phrase.expression.rule (rules n) := rfl
  rw [parseExpressionWithin_eq_ok, hrule]
  constructor
  · rintro ⟨rest, hr, hk⟩
    have hleft := advances_rule n .expression (w ++ after)
    rw [show _ = _ from hr] at hleft
    obtain rfl := hleft.eq_of_ends hw hafter hk
    obtain ⟨v, hv, hd, -⟩ := reads_rule_iff.1 hr
    rwa [List.append_cancel_right hv]
  · intro hd
    refine ⟨after, reads_rule_iff.2 ⟨w, rfl, hd, ?_⟩, hafter⟩
    cases after with
    | nil => exact Phrase.clear_nil _
    | cons t after =>
      have ht : t.kind = .eof := hafter
      rw [Phrase.clear_cons_iff, ht]
      rfl

theorem parseExpressionWithin_iff {w : List Token} {eof : Token} {e : Expr}
    (hw : ∀ t ∈ w, t.kind ≠ .eof) (heof : eof.kind = .eof) :
    parseExpressionWithin n (w ++ [eof]) = .ok e ↔ Derives n .expression w e :=
  parseExpressionWithin_iff_of_ends hw heof

end Grammar

open Grammar in
/-- **A program is parsed without errors exactly if it derives from the grammar**, with at
most 128 levels of nesting open at once, and the trees are those of the derivation.  In
particular no token list has two derivations with different trees. -/
theorem parse_eq_iff_derives (w : List Token) (eof : Token) (hw : ∀ t ∈ w, t.kind ≠ .eof)
    (heof : eof.kind = .eof) :
    (∀ ss, parse (w ++ [eof]) = ⟨ss, []⟩ ↔ Declarations 128 w [eof] ss) ∧
      ∀ ss ss', Declarations 128 w [eof] ss → Declarations 128 w [eof] ss' → ss = ss' := by
  have hiff : ∀ ss, parse (w ++ [eof]) = ⟨ss, []⟩ ↔ Declarations 128 w [eof] ss :=
    fun ss => parseWithin_iff hw heof
  refine ⟨hiff, ?_⟩
  intro ss ss' h h'
  have heq : (⟨ss, []⟩ : Program) = ⟨ss', []⟩ := ((hiff ss).2 h).symm.trans ((hiff ss').2 h')
  cases heq
  rfl

open Grammar in
/-- In `if (a) if (b) c; else d;` the `else` belongs to the inner `if`. -/
theorem derives_nearest_if :
    let word := fun kind : Kind => (⟨kind, 1, kind.text, none⟩ : Token)
    let name := fun x : String => (⟨.identifier, 1, x, none⟩ : Token)
    let w := [word .ifWord, word .leftParen, name "a", word .rightParen, word .ifWord,
      word .leftParen, name "b", word .rightParen, name "c", word .semicolon, word .elseWord,
      name "d", word .semicolon]
    (∀ t ∈ w, t.kind ≠ .eof) ∧
      Declarations 128 w [Token.eof 1]
        [.branch (.var (name "a"))
          (.branch (.var (name "b")) (.expression (.var (name "c")))
            (some (.expression (.var (name "d"))))) none] := by
  intro word name w
  have hw : ∀ t ∈ w, t.kind ≠ .eof := by decide
  exact ⟨hw, ((parse_eq_iff_derives w (Token.eof 1) hw rfl).1 _).1 rfl⟩

end Lox
