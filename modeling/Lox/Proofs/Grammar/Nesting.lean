import Lox.Proofs.Grammar.Depth
import Lox.Proofs.Grammar.Metering
import Lox.Token.Scan

/-!
# The limit of nesting

Each level of nesting, but the one of a statement that is an expression, is opened behind a token
of its own.  So a parser that may open a few more levels than there are tokens never reaches its
limit, and one that did not reach its limit is the parser without any.

* `meets_rules_shorter` — no rule runs out of levels on fewer tokens than it has levels.
* `notes_expression` — the errors noted in an expression are bad targets.
* `nesting_cap_is_exact` — what the limit changes, what it bounds, and how it is kept.
-/

namespace Lox

open Rule Grammar

/-! ## Levels that suffice -/

/-- Token lists of fewer than `k` tokens. -/
def Shorter (k : Nat) (ts : List Token) : Prop := ts.length < k

/-- Errors other than that too many levels are open. -/
def ParseError.IsShallow (e : ParseError) : Prop := e.fault ≠ .tooDeep

/-- The promise that asks nothing of trees. -/
def Promise.any : Promise := ⟨fun _ _ => True, fun _ => True, fun _ => True⟩

theorem Promise.Builds.any (T : Token → Prop) : Promise.any.Builds T Promise.any := by
  constructor <;> intros <;> exact trivial

/-- Behind a token there are fewer tokens. -/
theorem front_shorter (k : Nat) :
    Front (Shorter k) (Shorter (k - 1)) (fun _ => True) ParseError.IsShallow
      ParseError.IsShallow where
  take := by
    intro t ts hts _
    rw [Shorter, List.length_cons] at hts
    rw [Shorter]
    omega
  weaken := by
    intro ts hts
    rw [Shorter] at hts ⊢
    omega
  peek _ := trivial
  fault _ hfault := hfault
  target _ := by simp [ParseError.IsShallow]

/-- Rules do not run out of levels on fewer tokens than they may open levels.  A statement needs
one level more, as the expression that it may be stands in the same place. -/
theorem meets_rules_shorter (n : Nat) :
    (∀ k ≤ n, (rules n).expression.Meets (Shorter k) ParseError.IsShallow ParseError.IsShallow
        Promise.any.expression ∧
      (rules n).operand.Meets (Shorter k) ParseError.IsShallow ParseError.IsShallow
        (Promise.any.upTo 0)) ∧
    ∀ k ≤ n - 1, (rules n).statement.Meets (Shorter k) ParseError.IsShallow ParseError.IsShallow
      Promise.any.statement := by
  induction n with
  | zero =>
    have hnone : ∀ {α : Type} {k} {p : Rule α} {V : α → Prop}, k ≤ 0 →
        p.Meets (Shorter k) ParseError.IsShallow ParseError.IsShallow V := by
      intro α k p V hk ts hts
      rw [Shorter] at hts
      omega
    exact ⟨fun k hk => ⟨hnone hk, hnone hk⟩, fun k hk => hnone hk⟩
  | succ n ih =>
    obtain ⟨hexprs, hstmts⟩ := ih
    constructor
    · intro k hk
      obtain ⟨hexpr, hoperand⟩ := hexprs (k - 1) (by omega)
      exact ⟨meets_assignment (front_shorter k) (.any _) hexpr hoperand,
        meets_unary (front_shorter k) (.any _) hexpr hoperand⟩
    · intro k hk
      obtain ⟨hexpr, hoperand⟩ := hexprs (k - 1) (by omega)
      exact meets_statement (front_shorter k) (.any _) (hexprs k (by omega)).1
        ⟨hexpr, hoperand, hstmts (k - 1) (by omega)⟩

variable {tokens : List Token} {n : Nat}

theorem meet_rules_shorter (hn : tokens.length + 2 ≤ n) :
    (rules n).Meet (Shorter (tokens.length + 1)) ParseError.IsShallow .any := by
  obtain ⟨hexprs, hstmts⟩ := meets_rules_shorter n
  obtain ⟨hexpr, hoperand⟩ := hexprs (tokens.length + 1) (by omega)
  exact ⟨hexpr, hoperand, hstmts (tokens.length + 1) (by omega)⟩

/-- Rules that may open a few more levels than there are tokens do not run out of them. -/
theorem shallow_parseWithin (hn : tokens.length + 2 ≤ n) :
    ∀ e ∈ (parseWithin n tokens).errors, e.IsShallow :=
  (meets_parseWithin (front_shorter _).outer (meet_rules_shorter hn) (Nat.lt_succ_self _)).2

/-- The errors noted in an expression are bad targets. -/
theorem notes_expression (n : Nat) :
    (rules n).expression.Meets (fun _ => True) (fun _ => True) (·.fault = .badTarget)
        Promise.any.expression ∧
      (rules n).operand.Meets (fun _ => True) (fun _ => True) (·.fault = .badTarget)
        (Promise.any.upTo 0) := by
  have hfront := front_trivial (N := (·.fault = .badTarget)) fun _ => rfl
  induction n with
  | zero =>
    have hclosed : ∀ {V : Expr → Prop}, (fail .tooDeep : Rule Expr).Meets (fun _ => True)
        (fun _ => True) (·.fault = .badTarget) V :=
      fun _ _ => .failed trivial (by simp) trivial
    exact ⟨hclosed, hclosed⟩
  | succ n ih =>
    exact ⟨meets_assignment hfront (.any _) ih.1 ih.2,
      meets_unary hfront (.any _) ih.1 ih.2⟩

theorem Reply.Meets.all_errors {α : Type} {I : List Token → Prop} {E : ParseError → Prop}
    {V : α → Prop} {r : Reply α} (h : r.Meets I E E V) : ∀ e ∈ r.errors, E e := by
  cases h with
  | parsed value errors left => exact errors
  | failed error errors left => exact List.forall_mem_append.2 ⟨errors, by simpa using error⟩

/-- If the error that is told of an expression is shallow, so are all its errors. -/
theorem shallow_expression {cap : Nat}
    (h : ∀ e, parseExpressionWithin cap tokens = .error e → e.IsShallow) :
    ∀ e ∈ ((rules cap).expression tokens).errors, e.IsShallow := by
  have hshallow : ∀ {e : ParseError}, e.fault = .badTarget → e.IsShallow := by
    intro e he
    simp [ParseError.IsShallow, he]
  have hnotes := (notes_expression cap).1 tokens trivial
  rw [parseExpressionWithin] at h
  generalize (rules cap).expression tokens = r at h hnotes
  cases hnotes with
  | parsed value errors left => exact fun e he => hshallow (errors e he)
  | failed error errors left =>
    refine List.forall_mem_append.2 ⟨fun e he => hshallow (errors e he), ?_⟩
    simpa using h _ rfl

/-! ## The parser without a limit -/

namespace Metered

/-- A program that is parsed without running out of levels is parsed in the same way without a
limit. -/
theorem parseBy_unlimited (base : Metered.Rules) (hn : tokens.length + 2 ≤ n)
    (h : ∀ e ∈ (parse tokens).errors, e.IsShallow) :
    (parseBy (rulesFrom none base n) tokens).1 = parse tokens := by
  refine eq_of_suffice (fun rules => (parseBy rules tokens).1) (parseWithin · tokens)
    (fun n => ∀ e ∈ (parseWithin n tokens).errors, e.IsShallow) ?_ base (shallow_parseWithin hn) h
  exact fun base n hclean => (follows_parseWithin (follow_unlimited base n 0) hclean).1

/-- So is an expression. -/
theorem parseExpressionBy_unlimited (base : Metered.Rules) (hn : tokens.length + 2 ≤ n)
    (h : ∀ e, parseExpression tokens = .error e → e.IsShallow) :
    (parseExpressionBy (rulesFrom none base n) tokens).1 = parseExpression tokens := by
  refine eq_of_suffice (fun rules => (parseExpressionBy rules tokens).1)
    (parseExpressionWithin · tokens)
    (fun n => ∀ e ∈ ((rules n).expression tokens).errors, e.IsShallow) ?_ base ?_
    (shallow_expression h)
  · exact fun base n hclean =>
      (follows_parseExpressionWithin (follow_unlimited base n 0) hclean).1
  · exact ((meet_rules_shorter hn).expression tokens (Nat.lt_succ_self _)).all_errors

end Metered

/-- A program that is parsed without running out of levels is parsed in the same way with more of
them. -/
theorem parseWithin_eq_parse (hn : tokens.length + 2 ≤ n)
    (h : ∀ e ∈ (parse tokens).errors, e.IsShallow) : parseWithin n tokens = parse tokens := by
  let base : Metered.Rules :=
    ⟨liftM (fail .tooDeep), liftM (fail .tooDeep), liftM (fail .tooDeep)⟩
  have hfollow := Metered.follow_unlimited base n 0
  rw [← (Metered.follows_parseWithin hfollow (shallow_parseWithin hn)).1]
  exact Metered.parseBy_unlimited base hn h

/-! ## The limit -/

theorem ParseError.isShallow_of_message {e : ParseError}
    (h : e.fault.message ≠ "Too much nesting.") : e.IsShallow :=
  fun hfault => h (congrArg Fault.message hfault)

/-- **The limit of nesting is exact, and bounds the trees.**  Let the tokens be any list.

* If no error says that there is too much nesting, the result is that of the parser whose
  counter is not compared with a limit.  That parser calls itself no deeper than there are
  tokens and two, so it does not matter what it would do there.
* In every tree, with or without errors, each path from the root to a leaf has fewer groups,
  signs and assignments than there are levels, and at most eight edges for each level that do
  not lead to a left operand.
* The parser that compares its counter with the limit is the parser of programs and of
  expressions.  Each of its rules leaves the counter as it found it, whether it succeeds or
  fails, and the counter never exceeds the limit. -/
theorem nesting_cap_is_exact (tokens : List Token) (base : Metered.Rules) :
    (∀ n, tokens.length + 2 ≤ n →
      let unlimited := Metered.rulesFrom none base n
      ((∀ e ∈ (parse tokens).errors, e.fault.message ≠ "Too much nesting.") →
        (Metered.parseBy unlimited tokens).1 = parse tokens) ∧
      ((∀ e, parseExpression tokens = .error e → e.fault.message ≠ "Too much nesting.") →
        (Metered.parseExpressionBy unlimited tokens).1 = parseExpression tokens)) ∧
    (∀ root : Node, (∃ s ∈ (parse tokens).statements, root = .stmt s) ∨
        (∃ e, parseExpression tokens = .ok e ∧ root = .expr e) →
      ∀ nodes edges, root.Path nodes edges →
        nodes.countP Node.wraps ≤ maxNesting - 1 ∧ edges.count .other ≤ 8 * maxNesting) ∧
    ∀ n, maxNesting < n →
      let limited := Metered.rulesFrom (some maxNesting) base n
      ((Metered.parseBy limited tokens).1 = parse tokens ∧
        (Metered.parseBy limited tokens).2.peak ≤ maxNesting) ∧
      ((Metered.parseExpressionBy limited tokens).1 = parseExpression tokens ∧
        (Metered.parseExpressionBy limited tokens).2.peak ≤ maxNesting) ∧
      ∀ {α : Type} (method : Metered.Method α) (m : Meter) (ts : List Token),
        m.depth ≤ maxNesting → m.peak ≤ maxNesting →
        let after := method.metered limited m ts
        after.1 = method.plain (rules (maxNesting - m.depth)) ts ∧
          after.2.depth = m.depth ∧ after.2.peak ≤ maxNesting := by
  have hpeak : ∀ {m m' : Meter}, m.Stays (some maxNesting) m' → m.peak ≤ maxNesting →
      m'.peak ≤ maxNesting := by
    intro m m' hstays hm
    have hlimit := hstays.peak maxNesting rfl
    omega
  refine ⟨fun n hn => ⟨fun h => ?_, fun h => ?_⟩, ?_, fun n hn => ⟨?_, ?_, ?_⟩⟩
  · exact Metered.parseBy_unlimited base hn fun e he => ParseError.isShallow_of_message (h e he)
  · exact Metered.parseExpressionBy_unlimited base hn
      fun e he => ParseError.isShallow_of_message (h e he)
  · intro root hroot nodes edges hpath
    have hwithin : root.Within maxNesting (7 * maxNesting + 1) := by
      rcases hroot with ⟨s, hs, rfl⟩ | ⟨e, he, rfl⟩
      · exact within_parse hs
      · exact (within_parseExpression he).mono (Nat.le_refl _) (Nat.le_succ _)
    obtain ⟨hwraps, hedges⟩ := hwithin nodes edges hpath
    omega
  · obtain ⟨hparse, hstays⟩ := Metered.follows_parseWithin
      (Metered.follow_limited base (Nat.zero_le _) hn) fun _ _ => id
    exact ⟨hparse, hpeak hstays (Nat.zero_le _)⟩
  · obtain ⟨hparse, hstays⟩ := Metered.follows_parseExpressionWithin
      (Metered.follow_limited base (Nat.zero_le _) hn) fun _ _ => id
    exact ⟨hparse, hpeak hstays (Nat.zero_le _)⟩
  · intro α method m ts hdepth hm
    have hfollow := Metered.follow_limited base hdepth (by omega : maxNesting - m.depth < n)
    obtain ⟨hreply, hstays⟩ := method.follows hfollow m ts rfl fun _ _ => id
    exact ⟨hreply, hstays.depth, hpeak hstays hm⟩

/-- The parser without a limit reads a block of nine tokens in the same way, and does not come to
the rules that would take over after eleven levels. -/
theorem block_needs_no_limit :
    let tokens := (scan "\x7b print -(a); \x7d").tokens
    let base : Metered.Rules :=
      ⟨liftM (fail .noExpression), liftM (fail .noExpression), liftM (fail .noExpression)⟩
    (parse tokens).errors.isEmpty = true ∧
      (Metered.parseBy (Metered.rulesFrom none base 11) tokens).1 = parse tokens := by
  intro tokens base
  have hempty : (parse tokens).errors.isEmpty = true := by decide +kernel
  have hlength : tokens.length + 2 ≤ 11 := by decide +kernel
  refine ⟨hempty, ((nesting_cap_is_exact tokens base).1 11 hlength).1 ?_⟩
  rw [List.isEmpty_iff.1 hempty]
  simp

end Lox
