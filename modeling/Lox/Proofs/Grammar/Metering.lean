import Lox.Proofs.Grammar.Meter

/-!
# The counting parser against the grammar

A rule with a counter replies as the same rule does without one that may open the levels left,
and the counter is back where it was, whether the rule succeeds or fails.  Without a limit it
replies as the rule does that has levels enough.

* `Metered.Follows` — a counting rule replies as a plain rule wherever that one finds no bad
  errors.
* `Metered.Method.follows` — all rules follow, if those of the deeper level do.
* `Metered.follow_limited`, `Metered.follow_below` — all levels.
-/

namespace Lox

variable {α β : Type}

/-! ## Rules that follow others -/

/-- All errors of a reply, in the order in which they were found. -/
def Reply.errors : Reply α → List ParseError
  | parsed _ es _ => es
  | failed e es _ => es ++ [e]

theorem Reply.errors_after (es : List ParseError) (r : Reply α) :
    (r.after es).errors = es ++ r.errors := by
  cases r <;> simp [errors, after]

/-- The meter has as many levels open as before, and the limit was not exceeded meanwhile. -/
structure Meter.Stays (limit : Option Nat) (m m' : Meter) : Prop where
  depth : m'.depth = m.depth
  peak : ∀ l ∈ limit, m'.peak ≤ max m.peak l

namespace Meter.Stays

variable {limit : Option Nat} {m m' m'' : Meter}

theorem refl (limit : Option Nat) (m : Meter) : Stays limit m m :=
  ⟨rfl, fun l _ => Nat.le_max_left m.peak l⟩

theorem trans (h : Stays limit m m') (h' : Stays limit m' m'') : Stays limit m m'' := by
  refine ⟨h'.depth.trans h.depth, fun l hl => ?_⟩
  have hfirst := h.peak l hl
  have hlast := h'.peak l hl
  omega

end Meter.Stays

namespace Metered

open Rule Grammar

variable {limit : Option Nat} {bad : ParseError → Prop} {d : Nat}

/-- `Follows limit bad d f p`: with `d` levels open, the counting rule `f` replies as the rule
`p` does, wherever `p` finds no bad errors. -/
def Follows (limit : Option Nat) (bad : ParseError → Prop) (d : Nat) (f : Metered α)
    (p : Rule α) : Prop :=
  ∀ m ts, m.depth = d → (∀ e ∈ (p ts).errors, ¬ bad e) →
    (f m ts).1 = p ts ∧ m.Stays limit (f m ts).2

theorem follows_lift (p : Rule α) : Follows limit bad d (liftM p) (liftM p) :=
  fun m _ _ _ => ⟨rfl, .refl limit m⟩

theorem follows_pure (a : α) : Follows limit bad d (pure a) (pure a) :=
  fun m _ _ _ => ⟨rfl, .refl limit m⟩

theorem Follows.bind {f : Metered α} {p : Rule α} {g : α → Metered β} {q : α → Rule β}
    (hp : Follows limit bad d f p) (hq : ∀ a, Follows limit bad d (g a) (q a)) :
    Follows limit bad d (f >>= g) (p >>= q) := by
  intro m ts hm hclean
  have hfirst := hp m ts hm
  rw [bind_apply] at hclean ⊢
  cases hr : p ts with
  | failed e es rest =>
    rw [hr] at hfirst hclean
    obtain ⟨hreply, hstays⟩ := hfirst hclean
    rw [bind_of_failed (Prod.ext hreply rfl)]
    exact ⟨rfl, hstays⟩
  | parsed a es rest =>
    rw [hr] at hfirst hclean
    rw [show (Reply.parsed a es rest).andThen q = (q a rest).after es from rfl] at hclean ⊢
    rw [Reply.errors_after, List.forall_mem_append] at hclean
    obtain ⟨hreply, hstays⟩ := hfirst hclean.1
    obtain ⟨hnext, hstays'⟩ := hq a (f m ts).2 rest (hstays.depth.trans hm) hclean.2
    rw [bind_of_parsed (Prod.ext hreply rfl), hnext]
    exact ⟨rfl, hstays.trans hstays'⟩

theorem Follows.map {f : Metered α} {p : Rule α} (h : Follows limit bad d f p) (g : α → β) :
    Follows limit bad d (g <$> f) (g <$> p) :=
  h.bind fun a => follows_pure (g a)

end Metered

/-- The rules of a level are followed by counting ones. -/
structure Rules.Follow (limit : Option Nat) (bad : ParseError → Prop) (d : Nat)
    (rules : Rules Metered) (inner : Rules Rule) : Prop where
  expression : Metered.Follows limit bad d rules.expression inner.expression
  operand : Metered.Follows limit bad d rules.operand inner.operand
  statement : Metered.Follows limit bad d rules.statement inner.statement

namespace Metered

open Rule Grammar

variable {limit : Option Nat} {bad : ParseError → Prop} {d : Nat}

/-! ## Expressions -/

theorem follows_chainFrom {n : Nat} {operand : Metered Expr} {operand' : Rule Expr}
    (h : Follows limit bad d operand operand') (budget : List Token) (left : Expr) :
    Follows limit bad d (chainFrom n operand budget left) (chainFrom n operand' budget left) := by
  induction budget generalizing left with
  | nil => exact follows_pure left
  | cons b budget ih =>
    refine (follows_lift _).bind fun op => ?_
    cases op with
    | none => exact follows_pure left
    | some op => exact h.bind fun right => ih (join left op right)

theorem follows_chain {n : Nat} {operand : Metered Expr} {operand' : Rule Expr}
    (h : Follows limit bad d operand operand') :
    Follows limit bad d (chain n operand) (chain n operand') :=
  h.bind fun left => (follows_lift _).bind fun rest => follows_chainFrom h rest left

section
variable {inner : Lox.Rules Metered} {inner' : Lox.Rules Rule}
  (hin : inner.Follow limit bad d inner')
include hin

theorem follows_grouped : Follows limit bad d (grouped inner) (grouped inner') :=
  hin.expression.bind fun _ => (follows_lift _).bind fun _ => follows_pure _

theorem follows_primary : Follows limit bad d (primary inner) (primary inner') := by
  refine (follows_lift _).bind fun t => ?_
  generalize t.kind = kind
  cases kind with
  | identifier => exact (follows_lift _).bind fun _ => follows_pure _
  | leftParen => exact (follows_lift _).bind fun _ => follows_grouped hin
  | _ =>
    cases value? t with
    | none => exact follows_lift _
    | some v => exact (follows_lift _).bind fun _ => follows_pure _

theorem follows_unary : Follows limit bad d (unary inner) (unary inner') := by
  refine (follows_lift _).bind fun op => ?_
  cases op with
  | none => exact follows_primary hin
  | some op => exact hin.operand.bind fun _ => follows_pure _

theorem follows_upTo (n : Nat) : Follows limit bad d (upTo inner n) (upTo inner' n) := by
  induction n with
  | zero => exact follows_unary hin
  | succ n ih => exact follows_chain ih

theorem follows_assignment : Follows limit bad d (assignment inner) (assignment inner') := by
  refine (follows_upTo hin tiers).bind fun target => (follows_lift _).bind fun o => ?_
  cases o with
  | none => exact follows_pure target
  | some sign =>
    refine hin.expression.bind fun value => ?_
    cases target with
    | var name => exact follows_pure _
    | _ => exact (follows_lift _).bind fun _ => follows_pure _

end

/-! ## Lists of declarations -/

theorem errors_recovering (p : Rule Stmt) (ts : List Token) :
    (recovering p ts).errors = (p ts).errors := by
  rw [recovering_apply]
  cases p ts <;> rfl

/-- An error that is recovered from is noted, so no bad errors are hidden. -/
theorem follows_recovering {f : Metered Stmt} {p : Rule Stmt} (h : Follows limit bad d f p) :
    Follows limit bad d (recovering f) (recovering p) := by
  intro m ts hm hclean
  rw [errors_recovering] at hclean
  obtain ⟨hreply, hstays⟩ := h m ts hm hclean
  rw [recovering_apply, ← hreply]
  generalize hf : f m ts = r at hstays
  obtain ⟨reply, m'⟩ := r
  cases reply with
  | parsed s noted rest =>
    rw [recovering, tryCatch_of_parsed (bind_of_parsed hf)]
    exact ⟨by simp, hstays⟩
  | failed e noted rest =>
    rw [recovering, tryCatch_of_failed (bind_of_failed hf)]
    exact ⟨rfl, hstays⟩

theorem follows_declarationsWithin {f : Metered Stmt} {p : Rule Stmt}
    (h : Follows limit bad d f p) (stop : Kind → Bool) (budget : List Token) :
    Follows limit bad d (declarationsWithin stop f budget) (declarationsWithin stop p budget) := by
  induction budget with
  | nil => exact follows_pure []
  | cons b budget ih =>
    refine (follows_lift _).bind fun kind => ?_
    split
    · exact follows_pure []
    · exact (follows_recovering h).bind fun now => ih.bind fun later => follows_pure (now ++ later)

theorem follows_declarations {f : Metered Stmt} {p : Rule Stmt} (h : Follows limit bad d f p)
    (stop : Kind → Bool) : Follows limit bad d (declarations stop f) (declarations stop p) :=
  (follows_lift _).bind fun budget => follows_declarationsWithin h stop budget

/-! ## Statements -/

section
variable {inner : Lox.Rules Metered} {inner' : Lox.Rules Rule}
  (hin : inner.Follow limit bad d inner')
include hin

theorem follows_varDeclaration :
    Follows limit bad d (varDeclaration inner) (varDeclaration inner') := by
  refine (follows_lift _).bind fun name => (follows_lift _).bind fun o => ?_
  cases o with
  | none => exact (follows_pure none).bind fun _ => (follows_lift _).bind fun _ => follows_pure _
  | some sign =>
    exact (hin.expression.map some).bind fun _ => (follows_lift _).bind fun _ => follows_pure _

theorem follows_expressionStatement :
    Follows limit bad d (expressionStatement inner) (expressionStatement inner') :=
  hin.expression.bind fun _ => (follows_lift _).bind fun _ => follows_pure _

theorem follows_printStatement :
    Follows limit bad d (printStatement inner) (printStatement inner') :=
  hin.expression.bind fun _ => (follows_lift _).bind fun _ => follows_pure _

theorem follows_declaration : Follows limit bad d (declaration inner) (declaration inner') := by
  refine (follows_lift _).bind fun o => ?_
  cases o with
  | none => exact hin.statement
  | some word => exact follows_varDeclaration hin

theorem follows_blockBody : Follows limit bad d (blockBody inner) (blockBody inner') :=
  follows_declarations (follows_declaration hin) endsBlock

theorem follows_blockStatement :
    Follows limit bad d (blockStatement inner) (blockStatement inner') :=
  (follows_blockBody hin).bind fun _ => (follows_lift _).bind fun _ => follows_pure _

theorem follows_ifStatement : Follows limit bad d (ifStatement inner) (ifStatement inner') := by
  refine (follows_lift _).bind fun _ => hin.expression.bind fun c => (follows_lift _).bind fun _ =>
    hin.statement.bind fun yes => (follows_lift _).bind fun o => ?_
  cases o with
  | none => exact follows_pure _
  | some word => exact hin.statement.bind fun no => follows_pure _

theorem follows_whileStatement :
    Follows limit bad d (whileStatement inner) (whileStatement inner') :=
  (follows_lift _).bind fun _ => hin.expression.bind fun _ => (follows_lift _).bind fun _ =>
    hin.statement.bind fun _ => follows_pure _

theorem follows_forInitial : Follows limit bad d (forInitial inner) (forInitial inner') := by
  refine (follows_lift _).bind fun semicolon => ?_
  split
  · exact follows_pure none
  · refine (follows_lift _).bind fun word => ?_
    split
    · exact (follows_varDeclaration hin).bind fun _ => follows_pure _
    · exact (follows_expressionStatement hin).bind fun _ => follows_pure _

theorem follows_optional (closing : Kind) :
    Follows limit bad d (Grammar.optional inner closing) (Grammar.optional inner' closing) := by
  refine (follows_lift _).bind fun kind => ?_
  split
  · exact follows_pure none
  · exact hin.expression.bind fun _ => follows_pure _

theorem follows_forStatement : Follows limit bad d (forStatement inner) (forStatement inner') :=
  (follows_lift _).bind fun _ => (follows_forInitial hin).bind fun _ =>
    (follows_optional hin _).bind fun _ => (follows_lift _).bind fun _ =>
      (follows_optional hin _).bind fun _ => (follows_lift _).bind fun _ =>
        hin.statement.bind fun _ => follows_pure _

theorem follows_statement : Follows limit bad d (statement inner) (statement inner') := by
  have hword : ∀ {kind : Kind} {f g : Metered Stmt} {p q : Rule Stmt},
      Follows limit bad d f p → Follows limit bad d g q →
      Follows limit bad d (liftM (accept kind) >>= fun word => if word.isSome then f else g)
        (liftM (accept kind) >>= fun word => if word.isSome then p else q) := by
    intro kind f g p q hyes hno
    refine (follows_lift _).bind fun word => ?_
    split
    · exact hyes
    · exact hno
  exact hword (follows_forStatement hin) <| hword (follows_ifStatement hin) <|
    hword (follows_printStatement hin) <| hword (follows_whileStatement hin) <|
      hword (follows_blockStatement hin) (follows_expressionStatement hin)

/-- Every rule with a counter follows the same rule without one. -/
theorem Method.follows (method : Method α) :
    Follows limit bad d (method.metered inner) (method.plain inner') := by
  cases method with
  | expression => exact hin.expression
  | assignment => exact follows_assignment hin
  | upTo tier => exact follows_upTo hin tier
  | operand => exact hin.operand
  | unary => exact follows_unary hin
  | primary => exact follows_primary hin
  | grouped => exact follows_grouped hin
  | declaration => exact follows_declaration hin
  | varDeclaration => exact follows_varDeclaration hin
  | statement => exact hin.statement
  | statementBody => exact follows_statement hin
  | expressionStatement => exact follows_expressionStatement hin
  | printStatement => exact follows_printStatement hin
  | blockBody => exact follows_blockBody hin
  | blockStatement => exact follows_blockStatement hin
  | ifStatement => exact follows_ifStatement hin
  | whileStatement => exact follows_whileStatement hin
  | forInitial => exact follows_forInitial hin
  | optional closing => exact follows_optional hin closing
  | forStatement => exact follows_forStatement hin

end

/-! ## Levels -/

/-- Where the limit allows another level, opening one changes nothing else. -/
theorem follows_nested {f : Metered α} {p : Rule α} (h : Follows limit bad (d + 1) f p)
    (hopen : ∀ l ∈ limit, d < l) : Follows limit bad d (nested limit f) p := by
  intro m ts hm hclean
  have hfull : m.isFull limit = false := by
    cases limit with
    | none => rfl
    | some l => simpa [Meter.isFull, hm] using hopen l rfl
  obtain ⟨hreply, hdepth, hpeak⟩ := h m.enter ts (congrArg (· + 1) hm) hclean
  rw [nested, hfull]
  refine ⟨hreply, ?_, fun l hl => ?_⟩
  · show (f m.enter ts).2.depth - 1 = m.depth
    rw [hdepth, Meter.enter, Nat.add_sub_cancel]
  · have hl' := hopen l hl
    have hle : (f m.enter ts).2.peak ≤ max (max m.peak (m.depth + 1)) l := hpeak l hl
    show (f m.enter ts).2.peak ≤ max m.peak l
    omega

/-- Where the limit is reached, opening a level fails. -/
theorem follows_full {bound : Nat} (f : Metered α) (hfull : bound ≤ d) :
    Follows (some bound) bad d (nested (some bound) f) (fail .tooDeep) := by
  intro m ts hm _
  have hisFull : m.isFull (some bound) = true := by simpa [Meter.isFull, hm] using hfull
  rw [nested, hisFull]
  exact ⟨rfl, .refl (some bound) m⟩

theorem follow_opened {inner : Lox.Rules Metered} {inner' : Lox.Rules Rule}
    (h : inner.Follow limit bad (d + 1) inner') (hopen : ∀ l ∈ limit, d < l) :
    (opened limit (level inner)).Follow limit bad d (level inner') :=
  ⟨follows_nested (follows_assignment h) hopen, follows_nested (follows_unary h) hopen,
    follows_nested (follows_statement h) hopen⟩

/-- With a limit, the counting rules are those of the grammar that may open as many levels as
are left.  They call each other less deep than one more than these. -/
theorem follow_limited (base : Metered.Rules) {bound n d : Nat} (hd : d ≤ bound)
    (hn : bound - d < n) :
    (rulesFrom (some bound) base n).Follow (some bound) (fun _ => False) d (rules (bound - d)) := by
  induction n generalizing d with
  | zero => omega
  | succ n ih =>
    by_cases hfull : d = bound
    · subst hfull
      rw [Nat.sub_self]
      exact ⟨follows_full _ (Nat.le_refl d), follows_full _ (Nat.le_refl d),
        follows_full _ (Nat.le_refl d)⟩
    · rw [show bound - d = bound - (d + 1) + 1 by omega]
      refine follow_opened (ih (d := d + 1) (by omega) (by omega)) ?_
      rintro l ⟨⟩
      omega

/-- While the limit is out of reach, they are those of the grammar wherever these do not run out
of levels. -/
theorem follow_below (base : Metered.Rules) {n d : Nat} (hlimit : ∀ l ∈ limit, d + n ≤ l) :
    (rulesFrom limit base n).Follow limit (·.fault = .tooDeep) d (rules n) := by
  induction n generalizing d with
  | zero =>
    have hnever : ∀ {α : Type} (f : Metered α),
        Follows limit (·.fault = .tooDeep) d f (fail .tooDeep) :=
      fun f m ts _ hclean => absurd rfl (hclean ⟨.tooDeep, peek ts⟩ (by simp [fail, Reply.errors]))
    exact ⟨hnever _, hnever _, hnever _⟩
  | succ n ih =>
    refine follow_opened (ih (d := d + 1) ?_) ?_
    · intro l hl
      have hle := hlimit l hl
      omega
    · intro l hl
      have hle := hlimit l hl
      omega

/-- Without a limit it is always out of reach. -/
theorem follow_unlimited (base : Metered.Rules) (n d : Nat) :
    (rulesFrom none base n).Follow none (·.fault = .tooDeep) d (rules n) :=
  follow_below base fun _ hl => nomatch hl

theorem rulesFrom_add (limit : Option Nat) (base : Metered.Rules) (n k : Nat) :
    rulesFrom limit base (n + k) = rulesFrom limit (rulesFrom limit base k) n := by
  induction n with
  | zero => rw [Nat.zero_add, rulesFrom]
  | succ n ih => rw [Nat.succ_add, rulesFrom, ih, rulesFrom]

/-- Let a parser without a limit give the same result as the grammar with `n` levels wherever
these suffice.  Then all numbers of levels that suffice give the same result: the parser can be
cut off at each of them. -/
theorem eq_of_suffice {X : Type} (parser : Metered.Rules → X) (within : Nat → X)
    (suffice : Nat → Prop)
    (h : ∀ base n, suffice n → parser (rulesFrom none base n) = within n) (base : Metered.Rules)
    {n cap : Nat} (hn : suffice n) (hcap : suffice cap) :
    parser (rulesFrom none base n) = within cap := by
  rcases Nat.le_total cap n with hle | hle
  · obtain ⟨k, rfl⟩ := Nat.exists_eq_add_of_le hle
    rw [rulesFrom_add]
    exact h _ cap hcap
  · obtain ⟨k, rfl⟩ := Nat.exists_eq_add_of_le hle
    rw [h base n hn, ← h base (n + k) hcap, rulesFrom_add]
    exact (h _ n hn).symm

/-! ## Programs -/

variable {rules : Metered.Rules} {cap : Nat} {tokens : List Token}

theorem errors_ofReply (r : Reply (List Stmt)) : (Batch.ofReply r).errors = r.errors := by
  cases r <;> rfl

theorem follows_parseWithin (h : rules.Follow limit bad 0 (Grammar.rules cap))
    (hclean : ∀ e ∈ (parseWithin cap tokens).errors, ¬ bad e) :
    (parseBy rules tokens).1 = parseWithin cap tokens ∧
      Meter.start.Stays limit (parseBy rules tokens).2 := by
  have hclean' : ∀ e ∈ (declarations endsProgram (declaration (Grammar.rules cap)) tokens).errors,
      ¬ bad e := by
    rw [← errors_ofReply]
    exact hclean
  obtain ⟨hreply, hstays⟩ :=
    follows_declarations (follows_declaration h) endsProgram .start tokens rfl hclean'
  exact ⟨congrArg (fun r => (Batch.ofReply r).program) hreply, hstays⟩

theorem follows_parseExpressionWithin (h : rules.Follow limit bad 0 (Grammar.rules cap))
    (hclean : ∀ e ∈ ((Grammar.rules cap).expression tokens).errors, ¬ bad e) :
    (parseExpressionBy rules tokens).1 = parseExpressionWithin cap tokens ∧
      Meter.start.Stays limit (parseExpressionBy rules tokens).2 := by
  obtain ⟨hreply, hstays⟩ := h.expression .start tokens rfl hclean
  exact ⟨congrArg conclude hreply, hstays⟩

end Metered
end Lox
