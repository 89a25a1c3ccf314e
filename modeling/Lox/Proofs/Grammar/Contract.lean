import Lox.Proofs.Grammar.Advance

/-!
# Contracts of rules

Much of what is true of the grammar has one form: if the tokens have a property, then so have
the tokens that a rule leaves, all errors it finds and the tree it returns.  This file proves
once, for each rule, which properties the grammar hands on from the rules of an inner level of
nesting to those of the level around it.

* `Rule.Meets I E N p V` — from tokens with `I`, the rule `p` leaves tokens with `I`, fails only
  with errors that have `E`, notes only errors that have `N`, and returns values with `V`.
* `Front` — what the properties of tokens and of errors need for that.
* `Promise`, `Promise.Builds` — properties of the trees of two levels of nesting, and what
  they need.
* `meets_assignment`, `meets_unary`, `meets_statement`, `meets_declaration` — the rules.
-/

namespace Lox

variable {α β : Type}

/-! ## Rules that keep a contract -/

/-- The parts of a reply have certain properties: the tokens left, the error that ended the
rule, the errors noted on the way, and the value. -/
inductive Reply.Meets (I : List Token → Prop) (E N : ParseError → Prop) (V : α → Prop) :
    Reply α → Prop where
  | parsed {a noted rest} (value : V a) (errors : ∀ e ∈ noted, N e) (left : I rest) :
      Meets I E N V (.parsed a noted rest)
  | failed {e noted rest} (error : E e) (errors : ∀ e ∈ noted, N e) (left : I rest) :
      Meets I E N V (.failed e noted rest)

/-- A rule keeps a contract. -/
def Rule.Meets (I : List Token → Prop) (E N : ParseError → Prop) (p : Rule α) (V : α → Prop) :
    Prop :=
  ∀ ts, I ts → (p ts).Meets I E N V

/-- Properties of tokens and errors that rules can keep.  Of the tokens after the first one
that a rule takes, more may be known (`J`) than of those it is given (`I`).  Every token that a
rule looks at has the property `T`, and what is wrong at such a token is an error with `E`.
Where no statements are read, the only errors noted are bad targets. -/
structure Front (I J : List Token → Prop) (T : Token → Prop) (E N : ParseError → Prop) :
    Prop where
  take : ∀ {t ts}, I (t :: ts) → t.kind ≠ .eof → J ts
  weaken : ∀ {ts}, J ts → I ts
  peek : ∀ {ts}, I ts → T (Rule.peek ts)
  fault : ∀ {fault t}, T t → fault ≠ .tooDeep → E ⟨fault, t⟩
  target : ∀ {t}, T t → N ⟨.badTarget, t⟩

variable {I J : List Token → Prop} {T : Token → Prop} {E N : ParseError → Prop} {V W : α → Prop}
  {Q : β → Prop}

namespace Front

/-- What is known of all tokens stays known after some are taken. -/
theorem outer (h : Front I J T E N) : Front I I T E N :=
  ⟨fun hts ht => h.weaken (h.take hts ht), id, h.peek, h.fault, h.target⟩

theorem inner (h : Front I J T E N) : Front J J T E N :=
  ⟨fun hts ht => h.take (h.weaken hts) ht, id, fun hts => h.peek (h.weaken hts), h.fault, h.target⟩

theorem leaves (h : Front I I T E N) {ts rest : List Token} (hts : I ts) (hl : Leaves ts rest) :
    I rest := by
  obtain ⟨w, rfl, hw⟩ := hl
  induction w with
  | nil => exact hts
  | cons t w ih =>
    exact ih (fun u hu => hw u (List.mem_cons_of_mem t hu)) (h.take hts (hw t List.mem_cons_self))

end Front

/-- What the contracts need if nothing is asked of tokens and errors, but of errors noted. -/
theorem front_trivial {N : ParseError → Prop} (htarget : ∀ t, N ⟨.badTarget, t⟩) :
    Front (fun _ => True) (fun _ => True) (fun _ => True) (fun _ => True) N where
  take _ _ := trivial
  weaken := id
  peek := id
  fault _ _ := trivial
  target {t} _ := htarget t

theorem Reply.Meets.mono {r : Reply α} (h : r.Meets J E N V) (hI : ∀ {ts}, J ts → I ts)
    (hV : ∀ a, V a → W a) : r.Meets I E N W := by
  cases h with
  | parsed value errors left => exact .parsed (hV _ value) errors (hI left)
  | failed error errors left => exact .failed error errors (hI left)

theorem Reply.Meets.after {r : Reply α} (h : r.Meets I E N V) {earlier : List ParseError}
    (he : ∀ e ∈ earlier, N e) : (r.after earlier).Meets I E N V := by
  cases h with
  | parsed value errors left => exact .parsed value (List.forall_mem_append.2 ⟨he, errors⟩) left
  | failed error errors left => exact .failed error (List.forall_mem_append.2 ⟨he, errors⟩) left

theorem Reply.Meets.andThen {r : Reply α} {f : α → Rule β} (h : r.Meets I E N V)
    (hf : ∀ a, V a → (f a).Meets I E N Q) : (r.andThen f).Meets I E N Q := by
  cases h with
  | failed error errors left => exact .failed error errors left
  | @parsed a noted rest value errors left => exact (hf a value rest left).after errors

theorem Reply.Meets.value {a : α} {noted : List ParseError} {rest : List Token}
    (h : (Reply.parsed a noted rest).Meets I E N V) : V a := by
  cases h with
  | parsed value _ _ => exact value

namespace Rule

theorem meets_pure {a : α} (h : V a) : (pure a : Rule α).Meets I E N V :=
  fun _ hts => .parsed h (by simp) hts

theorem Meets.mono {p : Rule α} (h : p.Meets I E N V) (hV : ∀ a, V a → W a) : p.Meets I E N W :=
  fun ts hts => (h ts hts).mono id hV

theorem Meets.bind {p : Rule α} {f : α → Rule β} (hp : p.Meets I E N V)
    (hf : ∀ a, V a → (f a).Meets I E N Q) : (p >>= f).Meets I E N Q :=
  fun ts hts => (hp ts hts).andThen hf

theorem Meets.some {p : Rule α} (hp : p.Meets I E N V) :
    (some <$> p).Meets I E N fun o => ∀ a ∈ o, V a := by
  refine hp.bind fun a ha => meets_pure ?_
  rintro b ⟨⟩
  exact ha

theorem meets_none : (pure none : Rule (Option α)).Meets I E N fun o => ∀ a ∈ o, V a :=
  meets_pure fun _ ha => nomatch ha

theorem meets_nextKind : nextKind.Meets I E N fun _ => True :=
  fun _ hts => .parsed trivial (by simp) hts

theorem meets_note {e : ParseError} (he : N e) : (note e).Meets I E N fun _ => True :=
  fun _ hts => .parsed trivial (by simpa using he) hts

theorem expect_cases (kind : Kind) (fault : Fault) (ts : List Token) :
    (∃ t rest, ts = t :: rest ∧ t.kind = kind ∧ expect kind fault ts = .parsed t [] rest) ∨
      expect kind fault ts = .failed ⟨fault, peek ts⟩ [] ts := by
  cases ts with
  | nil => exact .inr rfl
  | cons t rest =>
    by_cases ht : t.kind = kind
    · refine .inl ⟨t, rest, rfl, ht, ?_⟩
      simp [expect, accept, acceptIf, ht, Reply.andThen, Reply.after]
    · exact .inr (by simp [expect, accept, acceptIf, ht, Reply.andThen, Reply.after, fail])

section
variable (hfront : Front I J T E N)
include hfront

theorem meets_fail {fault : Fault} (hfault : fault ≠ .tooDeep) :
    (fail fault : Rule α).Meets I E N V :=
  fun _ hts => .failed (hfront.fault (hfront.peek hts) hfault) (by simp) hts

/-- What follows a token that was taken is read from what is left behind it. -/
theorem meets_accept_bind {kind : Kind} (hkind : kind ≠ .eof) {f : Option Token → Rule β}
    (hnone : (f none).Meets I E N Q)
    (hsome : ∀ t, T t → t.kind = kind → (f (some t)).Meets J E N Q) :
    (accept kind >>= f).Meets I E N Q := by
  intro ts hts
  rw [bind_apply]
  cases ts with
  | nil => simpa [accept, acceptIf, Reply.andThen] using hnone [] hts
  | cons t ts =>
    rw [accept_cons]
    split
    next ht =>
      have hleft := hfront.take hts (by rwa [ht])
      simpa [Reply.andThen] using
        (hsome t (hfront.peek hts) ht ts hleft).mono hfront.weaken fun _ => id
    next => simpa [Reply.andThen] using hnone (t :: ts) hts

theorem meets_expect_bind {kind : Kind} {fault : Fault} (hkind : kind ≠ .eof)
    (hfault : fault ≠ .tooDeep) {f : Token → Rule β}
    (hf : ∀ t, T t → t.kind = kind → (f t).Meets J E N Q) :
    (expect kind fault >>= f).Meets I E N Q := by
  intro ts hts
  rw [bind_apply]
  rcases expect_cases kind fault ts with ⟨t, rest, rfl, ht, h⟩ | h
  · rw [h]
    have hleft := hfront.take hts (by rwa [ht])
    simpa [Reply.andThen] using
      (hf t (hfront.peek hts) ht rest hleft).mono hfront.weaken fun _ => id
  · rw [h]
    exact .failed (hfront.fault (hfront.peek hts) hfault) (by simp) hts

end

end Rule

/-! ## Trees of two levels -/

/-- Properties of the trees that the rules of a level return: of the expressions of each tier
of operators, of all expressions, and of statements. -/
structure Promise where
  upTo : Nat → Expr → Prop
  expression : Expr → Prop
  statement : Stmt → Prop

namespace Promise

/-- The declarations of variables that keep a promise. -/
def Declares (T : Token → Prop) (P : Promise) (s : Stmt) : Prop :=
  ∃ x initial, s = .declare x initial ∧ T x ∧ x.kind = .identifier ∧
    ∀ e ∈ initial, P.expression e

/-- The expressions standing as statements that keep a promise. -/
def Evaluates (P : Promise) (s : Stmt) : Prop := ∃ e, s = .expression e ∧ P.expression e

/-- From trees that keep the promise `inner` the grammar builds trees that keep the promise
`outer`.  The tokens that go into them have the property `T`. -/
structure Builds (T : Token → Prop) (inner outer : Promise) : Prop where
  literal : ∀ {t v}, T t → Grammar.value? t = some v → outer.upTo 0 (.literal v)
  var : ∀ {x}, T x → x.kind = .identifier → outer.upTo 0 (.var x)
  group : ∀ {e}, inner.expression e → outer.upTo 0 (.group e)
  unary : ∀ {op e}, T op → op.kind = .bang ∨ op.kind = .minus → inner.upTo 0 e →
    outer.upTo 0 (.unary op e)
  looser : ∀ {n e}, outer.upTo n e → outer.upTo (n + 1) e
  join : ∀ {n l op r}, T op → Grammar.tier? op.kind = some n → outer.upTo (n + 1) l →
    outer.upTo n r → outer.upTo (n + 1) (Grammar.join l op r)
  whole : ∀ {e}, outer.upTo Grammar.tiers e → outer.expression e
  assign : ∀ {x e}, outer.upTo Grammar.tiers (.var x) → inner.expression e →
    outer.expression (.assign x e)
  evaluates : ∀ {s}, inner.Evaluates s → outer.statement s
  print : ∀ {e}, inner.expression e → outer.statement (.print e)
  block : ∀ {body}, (∀ s ∈ body, inner.Declares T s ∨ inner.statement s) →
    outer.statement (.block body)
  branch : ∀ {c yes no}, inner.expression c → inner.statement yes →
    (∀ s ∈ no, inner.statement s) → outer.statement (.branch c yes no)
  loop : ∀ {c body}, inner.expression c → inner.statement body → outer.statement (.loop c body)
  counting : ∀ {initial condition step body},
    (∀ s ∈ initial, inner.Declares T s ∨ inner.Evaluates s) →
    (∀ e ∈ condition, inner.expression e) → (∀ e ∈ step, inner.expression e) →
    inner.statement body → outer.statement (.counting initial condition step body)

end Promise

/-- A counting loop is made of loops, blocks of two and expressions standing as statements.  Of
its body, and of loops and blocks, more may be known (`P`) than of what stands in a block (`Q`). -/
theorem Stmt.counting_of {C : Expr → Prop} {P Q : Stmt → Prop} (htrue : C (.literal (.bool true)))
    (hmember : ∀ {s}, P s → Q s) (hexpression : ∀ {e}, C e → Q (.expression e))
    (hpair : ∀ {s t}, Q s → Q t → P (.block [s, t]))
    (hloop : ∀ {c body}, C c → P body → P (.loop c body))
    {initial : Option Stmt} {condition step : Option Expr} {body : Stmt}
    (hi : ∀ s ∈ initial, Q s) (hc : ∀ e ∈ condition, C e) (hs : ∀ e ∈ step, C e) (hb : P body) :
    P (counting initial condition step body) := by
  have hcond : C (condition.getD (.literal (.bool true))) := by
    cases condition with
    | none => exact htrue
    | some c => exact hc c rfl
  -- the step only makes another body, so loops without a step remain
  have hwhole : ∀ turn : Stmt, P turn → P (counting initial condition none turn) := by
    intro turn hturn
    cases initial with
    | none => exact hloop hcond hturn
    | some i => exact hpair (hi i rfl) (hmember (hloop hcond hturn))
  cases step with
  | none => exact hwhole body hb
  | some e => exact hwhole _ (hpair (hmember hb) (hexpression (hs e rfl)))

/-- The rules of a level keep a promise.  As a block notes the errors of its statements, there
is one property for all errors. -/
structure Rules.Meet (I : List Token → Prop) (E : ParseError → Prop) (inner : Rules Rule)
    (P : Promise) : Prop where
  expression : inner.expression.Meets I E E P.expression
  operand : inner.operand.Meets I E E (P.upTo 0)
  statement : inner.statement.Meets I E E P.statement

namespace Grammar

open Rule

variable {inner : Rules Rule} {P P' : Promise}

/-! ## Expressions -/

theorem meets_chainFrom (hfront : Front I I T E N) {n : Nat} {operand : Rule Expr}
    {V W : Expr → Prop} (hop : operand.Meets I E N V)
    (hjoin : ∀ {l op r}, T op → tier? op.kind = some n → W l → V r → W (join l op r))
    (budget : List Token) {left : Expr} (hleft : W left) {ts : List Token} (hts : I ts) :
    (chainFrom n operand budget left ts).Meets I E N W := by
  induction budget generalizing left ts with
  | nil => exact .parsed hleft (by simp) hts
  | cons b budget ih =>
    cases ts with
    | nil =>
      rw [chainFrom_end]
      exact .parsed hleft (by simp) hts
    | cons op rest =>
      rw [chainFrom_cons]
      split
      next hkind =>
        have hne : op.kind ≠ .eof := by
          intro he
          rw [he] at hkind
          cases hkind
        exact (hop rest (hfront.take hts hne)).andThen fun right hright us hus =>
          ih (hjoin (hfront.peek hts) hkind hleft hright) hus
      next => exact .parsed hleft (by simp) hts

section
variable (hfront : Front I J T E N) (hbuilds : P.Builds T P')
  (hexpression : inner.expression.Meets J E N P.expression)
include hfront hbuilds hexpression

theorem meets_grouped : (grouped inner).Meets J E N (P'.upTo 0) := by
  refine hexpression.bind fun e he => ?_
  refine meets_expect_bind hfront.inner (by decide) (by simp) fun _ _ _ => ?_
  exact meets_pure (hbuilds.group he)

theorem meets_primary : (primary inner).Meets I E N (P'.upTo 0) := by
  intro ts hts
  cases ts with
  | nil => exact meets_fail hfront (by simp) [] hts
  | cons t ts =>
    have hleft : t.kind ≠ .eof → J ts := hfront.take hts
    rw [primary_cons]
    split
    next hk =>
      exact .parsed (hbuilds.var (hfront.peek hts) hk) (by simp)
        (hfront.weaken (hleft (by simp [hk])))
    next hk =>
      exact (meets_grouped hfront hbuilds hexpression ts (hleft (by simp [hk]))).mono
        hfront.weaken fun _ => id
    next =>
      split
      next v hv =>
        have hne : t.kind ≠ .eof := by
          intro he
          simp [value?, he] at hv
        exact .parsed (hbuilds.literal (hfront.peek hts) hv) (by simp) (hfront.weaken (hleft hne))
      next => exact meets_fail hfront (by simp) (t :: ts) hts

variable (hoperand : inner.operand.Meets J E N (P.upTo 0))
include hoperand

theorem meets_unary : (unary inner).Meets I E N (P'.upTo 0) := by
  intro ts hts
  cases ts with
  | nil => exact meets_primary hfront hbuilds hexpression [] hts
  | cons t ts =>
    rw [unary_cons]
    split
    next hk =>
      have hne : t.kind ≠ .eof := by rcases hk with hk | hk <;> simp [hk]
      have hreply : ((inner.operand ts).andThen fun e rest =>
          Reply.parsed (.unary t e) [] rest).Meets J E N (P'.upTo 0) :=
        (hoperand ts (hfront.take hts hne)).andThen fun e he us hus =>
          .parsed (hbuilds.unary (hfront.peek hts) hk he) (by simp) hus
      exact hreply.mono hfront.weaken fun _ => id
    next => exact meets_primary hfront hbuilds hexpression (t :: ts) hts

/-- A tier has the trees of the tighter tiers, and joins them. -/
theorem meets_upTo (n : Nat) : (upTo inner n).Meets I E N (P'.upTo n) := by
  induction n with
  | zero => exact meets_unary hfront hbuilds hexpression hoperand
  | succ n ih =>
    rw [upTo, chain_eq]
    exact ih.bind fun left hleft us hus =>
      meets_chainFrom hfront.outer ih hbuilds.join us (hbuilds.looser hleft) hus

theorem meets_assignment : (assignment inner).Meets I E N P'.expression := by
  refine (meets_upTo hfront hbuilds hexpression hoperand tiers).bind fun target htarget => ?_
  refine meets_accept_bind hfront (by decide) ?_ ?_
  · exact meets_pure (hbuilds.whole htarget)
  · intro sign hsign _
    refine hexpression.bind fun value hvalue => ?_
    split
    next name => exact meets_pure (hbuilds.assign htarget hvalue)
    next =>
      refine (meets_note (hfront.target hsign)).bind fun _ _ => ?_
      exact meets_pure (hbuilds.whole htarget)

end

/-! ## Statements -/

theorem meets_attempt (hfront : Front I I T E E) {d : Rule Stmt} {V : Stmt → Prop}
    (hd : d.Meets I E E V) {ts : List Token} (hts : I ts) :
    (∀ s ∈ (attempt d ts).statements, V s) ∧ (∀ e ∈ (attempt d ts).errors, E e) ∧
      I (attempt d ts).rest := by
  have hreply := hd ts hts
  rw [attempt_eq]
  generalize d ts = r at hreply
  cases hreply with
  | parsed value errors left => exact ⟨by simpa using value, errors, left⟩
  | @failed e noted rest error errors left =>
    refine ⟨by simp, ?_, hfront.leaves left (leaves_synchronize rest)⟩
    exact List.forall_mem_append.2 ⟨errors, by simpa using error⟩

theorem meets_batch (hfront : Front I I T E E) {stop : Kind → Bool} {d : Rule Stmt}
    {V : Stmt → Prop} (hd : d.Meets I E E V) {ts : List Token} (hts : I ts) :
    (∀ s ∈ (batch stop d ts).statements, V s) ∧ (∀ e ∈ (batch stop d ts).errors, E e) ∧
      I (batch stop d ts).rest := by
  refine batch_induction (motive := fun ts b => I ts →
    (∀ s ∈ b.statements, V s) ∧ (∀ e ∈ b.errors, E e) ∧ I b.rest) ?_ ?_ ts hts
  · exact fun ts hts => ⟨by simp, by simp, hts⟩
  · intro ts b _ hb hts
    obtain ⟨hstatements, herrors, hrest⟩ := meets_attempt hfront hd hts
    obtain ⟨hstatements', herrors', hrest'⟩ := hb hrest
    exact ⟨List.forall_mem_append.2 ⟨hstatements, hstatements'⟩,
      List.forall_mem_append.2 ⟨herrors, herrors'⟩, hrest'⟩

theorem meets_expressionStatement (hfront : Front I I T E E)
    (hexpression : inner.expression.Meets I E E P.expression) :
    (expressionStatement inner).Meets I E E P.Evaluates := by
  refine hexpression.bind fun e he => ?_
  refine meets_expect_bind hfront (by decide) (by simp) fun _ _ _ => ?_
  exact meets_pure ⟨e, rfl, he⟩

theorem meets_optional (hexpression : inner.expression.Meets I E E P.expression) (closing : Kind) :
    (Grammar.optional inner closing).Meets I E E fun o => ∀ e ∈ o, P.expression e := by
  refine meets_nextKind.bind fun kind _ => ?_
  split
  · exact meets_none
  · exact hexpression.some

section
variable (hfront : Front I I T E E) (hbuilds : P.Builds T P') (hin : inner.Meet I E P)
include hfront hin

theorem meets_varDeclaration : (varDeclaration inner).Meets I E E (P.Declares T) := by
  refine meets_expect_bind hfront (by decide) (by simp) fun name hname hkind => ?_
  have hclose : ∀ initial : Option Expr, (∀ e ∈ initial, P.expression e) →
      (expectAfter .semicolon .declaration >>= fun _ =>
        pure (.declare name initial) : Rule Stmt).Meets I E E (P.Declares T) := by
    intro initial hinitial
    refine meets_expect_bind hfront (by decide) (by simp) fun _ _ _ => ?_
    exact meets_pure ⟨name, initial, rfl, hname, hkind, hinitial⟩
  refine meets_accept_bind hfront (by decide) (meets_none.bind hclose) fun _ _ _ => ?_
  exact hin.expression.some.bind hclose

theorem meets_forInitial :
    (forInitial inner).Meets I E E fun o => ∀ s ∈ o, P.Declares T s ∨ P.Evaluates s := by
  refine meets_accept_bind hfront (by decide) ?_ fun _ _ _ => meets_none
  refine meets_accept_bind hfront (by decide) ?_ fun _ _ _ => ?_
  · exact ((meets_expressionStatement hfront hin.expression).mono fun _ => .inr).some
  · exact ((meets_varDeclaration hfront hin).mono fun _ => .inl).some

/-- A declaration of a variable, or any statement. -/
theorem meets_declaration :
    (declaration inner).Meets I E E fun s => P.Declares T s ∨ P.statement s := by
  refine meets_accept_bind hfront (by decide) ?_ fun _ _ _ => ?_
  · exact hin.statement.mono fun _ => .inr
  · exact (meets_varDeclaration hfront hin).mono fun _ => .inl

include hbuilds

theorem meets_printStatement : (printStatement inner).Meets I E E P'.statement := by
  refine hin.expression.bind fun e he => ?_
  refine meets_expect_bind hfront (by decide) (by simp) fun _ _ _ => ?_
  exact meets_pure (hbuilds.print he)

theorem meets_blockStatement : (blockStatement inner).Meets I E E P'.statement := by
  have hbody : (blockBody inner).Meets I E E fun body =>
      ∀ s ∈ body, P.Declares T s ∨ P.statement s := by
    intro ts hts
    obtain ⟨hstatements, herrors, hrest⟩ := meets_batch hfront (meets_declaration hfront hin) hts
    rw [blockBody_apply]
    exact .parsed hstatements herrors hrest
  refine hbody.bind fun body hbody => ?_
  refine meets_expect_bind hfront (by decide) (by simp) fun _ _ _ => ?_
  exact meets_pure (hbuilds.block hbody)

theorem meets_ifStatement : (ifStatement inner).Meets I E E P'.statement := by
  refine meets_expect_bind hfront (by decide) (by simp) fun _ _ _ => ?_
  refine hin.expression.bind fun c hc => ?_
  refine meets_expect_bind hfront (by decide) (by simp) fun _ _ _ => ?_
  refine hin.statement.bind fun yes hyes => ?_
  refine meets_accept_bind hfront (by decide) ?_ fun _ _ _ => ?_
  · exact meets_pure (hbuilds.branch hc hyes fun _ hs => nomatch hs)
  · refine hin.statement.bind fun no hno => meets_pure (hbuilds.branch hc hyes ?_)
    rintro s ⟨⟩
    exact hno

theorem meets_whileStatement : (whileStatement inner).Meets I E E P'.statement := by
  refine meets_expect_bind hfront (by decide) (by simp) fun _ _ _ => ?_
  refine hin.expression.bind fun c hc => ?_
  refine meets_expect_bind hfront (by decide) (by simp) fun _ _ _ => ?_
  exact hin.statement.bind fun body hbody => meets_pure (hbuilds.loop hc hbody)

theorem meets_forStatement : (forStatement inner).Meets I E E P'.statement := by
  refine meets_expect_bind hfront (by decide) (by simp) fun _ _ _ => ?_
  refine (meets_forInitial hfront hin).bind fun initial hinitial => ?_
  refine (meets_optional hin.expression .semicolon).bind fun condition hcondition => ?_
  refine meets_expect_bind hfront (by decide) (by simp) fun _ _ _ => ?_
  refine (meets_optional hin.expression .rightParen).bind fun step hstep => ?_
  refine meets_expect_bind hfront (by decide) (by simp) fun _ _ _ => ?_
  refine hin.statement.bind fun body hbody => ?_
  exact meets_pure (hbuilds.counting hinitial hcondition hstep hbody)

end

/-- A statement that begins with a word of its own is read by the inner rules behind that word;
any other begins with an expression, which stands in the same place. -/
theorem meets_statement (hfront : Front I J T E E) (hbuilds : P.Builds T P')
    (hexpression : inner.expression.Meets I E E P.expression) (hin : inner.Meet J E P) :
    (statement inner).Meets I E E P'.statement := by
  have hbare : (expressionStatement inner).Meets I E E P'.statement :=
    (meets_expressionStatement hfront.outer hexpression).mono fun _ => hbuilds.evaluates
  intro ts hts
  cases ts with
  | nil =>
    rw [statement_nil]
    exact hbare [] hts
  | cons t ts =>
    have hbehind : ∀ {p : Rule Stmt}, p.Meets J E E P'.statement → t.kind ≠ .eof →
        (p ts).Meets I E E P'.statement :=
      fun hp hne => (hp ts (hfront.take hts hne)).mono hfront.weaken fun _ => id
    rw [statement_cons]
    split
    next hk => exact hbehind (meets_forStatement hfront.inner hbuilds hin) (by simp [hk])
    next hk => exact hbehind (meets_ifStatement hfront.inner hbuilds hin) (by simp [hk])
    next hk => exact hbehind (meets_printStatement hfront.inner hbuilds hin) (by simp [hk])
    next hk => exact hbehind (meets_whileStatement hfront.inner hbuilds hin) (by simp [hk])
    next hk => exact hbehind (meets_blockStatement hfront.inner hbuilds hin) (by simp [hk])
    next => exact hbare (t :: ts) hts

/-! ## Levels of nesting -/

/-- A contract for every level of nesting, each of which builds on the one inside it. -/
theorem meet_rules {P : Nat → Promise} (hfront : Front I I T E E)
    (hdeep : ∀ {t}, T t → E ⟨.tooDeep, t⟩) (hbuilds : ∀ n, (P n).Builds T (P (n + 1))) (n : Nat) :
    (rules n).Meet I E (P n) := by
  induction n with
  | zero =>
    have hclosed : ∀ {α : Type} {V : α → Prop}, (fail .tooDeep : Rule α).Meets I E E V :=
      fun _ hts => .failed (hdeep (hfront.peek hts)) (by simp) hts
    exact ⟨hclosed, hclosed, hclosed⟩
  | succ n ih =>
    exact ⟨meets_assignment hfront (hbuilds n) ih.expression ih.operand,
      meets_unary hfront (hbuilds n) ih.expression ih.operand,
      meets_statement hfront (hbuilds n) ih.expression ih⟩

/-- A program has only declarations that keep the promise, and only errors that keep the
contract. -/
theorem meets_parseWithin {cap : Nat} (hfront : Front I I T E E) (hrules : (rules cap).Meet I E P)
    {tokens : List Token} (htokens : I tokens) :
    (∀ s ∈ (parseWithin cap tokens).statements, P.Declares T s ∨ P.statement s) ∧
      ∀ e ∈ (parseWithin cap tokens).errors, E e := by
  obtain ⟨hstatements, herrors, -⟩ := meets_batch hfront (meets_declaration hfront hrules) htokens
  exact ⟨hstatements, herrors⟩

/-- So does an expression that stands alone. -/
theorem meets_parseExpressionWithin {cap : Nat} (hfront : Front I I T E E)
    (hrules : (rules cap).Meet I E P) {tokens : List Token} (htokens : I tokens) :
    (∀ e, parseExpressionWithin cap tokens = .ok e → P.expression e) ∧
      ∀ error, parseExpressionWithin cap tokens = .error error → E error := by
  have hreply := hrules.expression tokens htokens
  rw [parseExpressionWithin]
  generalize (rules cap).expression tokens = r at hreply
  cases hreply with
  | failed error errors left => simpa [conclude] using error
  | @parsed e noted rest value errors left =>
    cases noted with
    | cons error noted => simpa [conclude] using errors error List.mem_cons_self
    | nil =>
      by_cases hend : (peek rest).kind = .eof
      · simpa [conclude, hend] using value
      · simpa [conclude, hend] using hfront.fault (hfront.peek left) (by simp)

end Grammar
end Lox
