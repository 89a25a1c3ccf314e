import Lox.Grammar.Program

/-!
# Rules take tokens from the front

A rule is a function on token lists, so nothing in its type says that it reads its
input from left to right.  This file proves that all rules of the grammar do, and
what follows for the two loops of the grammar, which are given a budget.

* `Leaves ts rest` — the tokens `rest` are left of `ts`, and the end of input was not
  among those taken.
* `Rule.Advances` — a rule leaves a part of its tokens, whether it succeeds or fails;
  `advances_rules` has it for every level of nesting.
* `Rule.Takes` — a success takes at least one token; `takes_declaration`.
* `chain_eq`, `chainRest_cons`, `batch_eq` — the equations of the loops without the
  budget, which never runs out; `batch_induction` — what every turn keeps.
-/

namespace Lox

variable {α β : Type}

/-! ## Tokens that are left -/

/-- The tokens `rest` are left of `ts` after some tokens were taken from the front, none of
which is the end of input. -/
def Leaves (ts rest : List Token) : Prop := ∃ w, ts = w ++ rest ∧ ∀ t ∈ w, t.kind ≠ .eof

namespace Leaves

variable {ts mid rest : List Token}

theorem refl (ts : List Token) : Leaves ts ts := ⟨[], rfl, by simp⟩

theorem cons {t : Token} (ts : List Token) (ht : t.kind ≠ .eof) : Leaves (t :: ts) ts :=
  ⟨[t], rfl, by simpa using ht⟩

theorem trans (h : Leaves ts mid) (h' : Leaves mid rest) : Leaves ts rest := by
  obtain ⟨w, rfl, hw⟩ := h
  obtain ⟨v, rfl, hv⟩ := h'
  refine ⟨w ++ v, by simp, ?_⟩
  intro t ht
  rcases List.mem_append.1 ht with ht | ht
  · exact hw t ht
  · exact hv t ht

theorem length_le (h : Leaves ts rest) : rest.length ≤ ts.length := by
  obtain ⟨w, rfl, -⟩ := h
  simp

theorem eq_of_length (h : Leaves ts rest) (hl : rest.length = ts.length) : rest = ts := by
  obtain ⟨w, rfl, -⟩ := h
  have : w = [] := by simpa using hl
  rw [this, List.nil_append]

/-- What is left at the end of input are the tokens from the first end of input on. -/
theorem eq_dropWhile (h : Leaves ts rest) (hend : (Rule.peek rest).kind = .eof) :
    rest = ts.dropWhile (·.kind ≠ .eof) := by
  obtain ⟨w, rfl, hw⟩ := h
  rw [List.dropWhile_append_of_pos (by simpa using hw)]
  cases rest with
  | nil => rfl
  | cons t rest =>
    have ht : t.kind = .eof := hend
    simp [ht]

/-- There is one place at which the end of input can be left. -/
theorem eq_of_ends {w after : List Token} (h : Leaves (w ++ after) rest)
    (hw : ∀ t ∈ w, t.kind ≠ .eof) (hafter : (Rule.peek after).kind = .eof)
    (hrest : (Rule.peek rest).kind = .eof) : rest = after := by
  have hleft : Leaves (w ++ after) after := ⟨w, rfl, hw⟩
  rw [h.eq_dropWhile hrest, ← hleft.eq_dropWhile hafter]

end Leaves

/-! ## Rules that advance -/

namespace Rule

/-- A rule takes tokens from the front, and never the end of input. -/
def Advances (p : Rule α) : Prop := ∀ ts, Leaves ts (p ts).rest

theorem advances_pure (a : α) : (pure a : Rule α).Advances := Leaves.refl

theorem advances_fail (fault : Fault) : (fail fault : Rule α).Advances := Leaves.refl

theorem advances_note (e : ParseError) : (note e).Advances := Leaves.refl

theorem advances_nextKind : nextKind.Advances := Leaves.refl

theorem advances_accept {kind : Kind} (hkind : kind ≠ .eof) : (accept kind).Advances := by
  intro ts
  cases ts with
  | nil => exact Leaves.refl []
  | cons t ts =>
    rw [accept_cons]
    split
    next ht => exact Leaves.cons ts (by rwa [ht])
    next => exact Leaves.refl (t :: ts)

theorem leaves_andThen {r : Reply α} {f : α → List Token → Reply β} {ts : List Token}
    (hr : Leaves ts r.rest) (hf : ∀ a mid, Leaves mid (f a mid).rest) :
    Leaves ts (r.andThen f).rest := by
  cases r with
  | failed e es mid => exact hr
  | parsed a es mid =>
    rw [Reply.andThen, Reply.rest_after]
    exact hr.trans (hf a mid)

theorem Advances.bind {p : Rule α} {f : α → Rule β} (hp : p.Advances)
    (hf : ∀ a, (f a).Advances) : (p >>= f).Advances := by
  intro ts
  rw [bind_apply]
  exact leaves_andThen (hp ts) hf

theorem Advances.map {p : Rule α} (hp : p.Advances) (f : α → β) : (f <$> p).Advances :=
  hp.bind fun a => advances_pure (f a)

/-- A success takes at least one token. -/
def Takes (p : Rule α) : Prop :=
  ∀ ts a es rest, p ts = .parsed a es rest → rest.length < ts.length

theorem andThen_eq_parsed_iff {r : Reply α} {f : α → List Token → Reply β} {b : β}
    {es : List ParseError} {rest : List Token} :
    r.andThen f = .parsed b es rest ↔
      ∃ a es₁ mid es₂, r = .parsed a es₁ mid ∧ f a mid = .parsed b es₂ rest ∧ es = es₁ ++ es₂ := by
  cases r with
  | failed e es mid => simp [Reply.andThen]
  | parsed a es mid =>
    cases hf : f a mid <;> simp [Reply.andThen, Reply.after, hf]
    grind

theorem Advances.length_le {p : Rule α} (hp : p.Advances) {ts rest : List Token} {a : α}
    {es : List ParseError} (h : p ts = .parsed a es rest) : rest.length ≤ ts.length := by
  have := (hp ts).length_le
  rwa [h] at this

theorem Takes.bind {p : Rule α} {f : α → Rule β} (hp : p.Takes) (hf : ∀ a, (f a).Advances) :
    (p >>= f).Takes := by
  intro ts b es rest h
  obtain ⟨a, es₁, mid, es₂, hr, hb, -⟩ := andThen_eq_parsed_iff.1 h
  have h₁ := hp ts a es₁ mid hr
  have h₂ := (hf a).length_le hb
  omega

theorem Advances.bind_takes {p : Rule α} {f : α → Rule β} (hp : p.Advances)
    (hf : ∀ a, (f a).Takes) : (p >>= f).Takes := by
  intro ts b es rest h
  obtain ⟨a, es₁, mid, es₂, hr, hb, -⟩ := andThen_eq_parsed_iff.1 h
  have h₁ := hp.length_le hr
  have h₂ := hf a mid b es₂ rest hb
  omega

theorem takes_expect (kind : Kind) (fault : Fault) : (expect kind fault).Takes := by
  intro ts t es rest h
  obtain ⟨o, es₁, mid, es₂, ho, ht, -⟩ := andThen_eq_parsed_iff.1 h
  cases o with
  | none => exact absurd ht (by simp [fail])
  | some u =>
    cases ht
    cases ts with
    | nil => exact absurd ho (by simp [accept, acceptIf])
    | cons v vs =>
      rw [accept_cons] at ho
      split at ho
      · cases ho
        exact Nat.lt_succ_self _
      · exact absurd ho (by simp)

theorem advances_expect {kind : Kind} (hkind : kind ≠ .eof) (fault : Fault) :
    (expect kind fault).Advances := by
  refine (advances_accept hkind).bind ?_
  intro o
  cases o with
  | none => exact advances_fail fault
  | some t => exact advances_pure t

theorem advances_expectAfter {kind : Kind} (hkind : kind ≠ .eof) (place : Place) :
    (expectAfter kind place).Advances :=
  advances_expect hkind (.missing kind place)

/-! ## Recovery -/

theorem leaves_skip (last : Kind) (ts : List Token) : Leaves ts (skip last ts) := by
  induction ts generalizing last with
  | nil => exact Leaves.refl []
  | cons t ts ih =>
    rw [skip]
    split
    next => exact Leaves.refl (t :: ts)
    next h => exact (Leaves.cons ts fun ht => h (.inl ht)).trans (ih t.kind)

theorem leaves_synchronize (ts : List Token) : Leaves ts (synchronize ts) := by
  cases ts with
  | nil => exact Leaves.refl []
  | cons t ts =>
    rw [synchronize]
    split
    next => exact Leaves.refl (t :: ts)
    next ht => exact (Leaves.cons ts ht).trans (leaves_skip t.kind ts)

/-- Recovery takes a token, unless the input has ended. -/
theorem length_synchronize_lt {t : Token} (ts : List Token) (ht : t.kind ≠ .eof) :
    (synchronize (t :: ts)).length < (t :: ts).length := by
  rw [synchronize, if_neg ht, List.length_cons]
  exact Nat.lt_succ_of_le (leaves_skip t.kind ts).length_le

end Rule

/-- The rules of a level all advance, and statements take tokens. -/
structure Rules.Advance (inner : Rules Rule) : Prop where
  expression : inner.expression.Advances
  operand : inner.operand.Advances
  statement : inner.statement.Advances
  takes : inner.statement.Takes

namespace Grammar

open Rule

/-! ## Chains of operands -/

theorem leaves_chainFrom {n : Nat} {operand : Rule Expr} (h : operand.Advances)
    (budget : List Token) (left : Expr) (ts : List Token) :
    Leaves ts (chainFrom n operand budget left ts).rest := by
  induction budget generalizing left ts with
  | nil => exact Leaves.refl ts
  | cons b budget ih =>
    cases ts with
    | nil => exact Leaves.refl []
    | cons op rest =>
      rw [chainFrom_cons]
      split
      next hop =>
        have hne : op.kind ≠ .eof := by
          intro he
          rw [he] at hop
          cases hop
        exact leaves_andThen ((Leaves.cons rest hne).trans (h rest)) fun right =>
          ih (join left op right)
      next => exact Leaves.refl (op :: rest)

/-- A chain goes on in the same way under every budget that is as long as the input. -/
theorem chainFrom_budget {n : Nat} {operand : Rule Expr} (h : operand.Advances)
    (b b' : List Token) (left : Expr) (ts : List Token) (hb : ts.length ≤ b.length)
    (hb' : ts.length ≤ b'.length) :
    chainFrom n operand b left ts = chainFrom n operand b' left ts := by
  induction b generalizing b' left ts with
  | nil =>
    have : ts = [] := List.eq_nil_of_length_eq_zero (Nat.le_zero.1 hb)
    subst this
    rw [chainFrom_end, chainFrom_end]
  | cons x b ih =>
    match ts, b' with
    | [], _ => rw [chainFrom_end, chainFrom_end]
    | op :: rest, x' :: b' =>
      rw [chainFrom_cons, chainFrom_cons]
      split
      · -- what the operand leaves is no longer than what it was given
        cases hop : operand rest with
        | failed e es mid => rfl
        | parsed right es mid =>
          have hmid : mid.length ≤ rest.length := by
            have := (h rest).length_le
            rwa [hop] at this
          simp only [List.length_cons, Nat.add_le_add_iff_right] at hb hb'
          simp only [Reply.andThen,
            ih b' _ mid (Nat.le_trans hmid hb) (Nat.le_trans hmid hb')]
      · rfl

/-- How a chain of tier `n` goes on after its part `left`. -/
def chainRest (n : Nat) (operand : Rule Expr) (left : Expr) (ts : List Token) : Reply Expr :=
  chainFrom n operand ts left ts

theorem chain_eq (n : Nat) (operand : Rule Expr) :
    chain n operand = operand >>= chainRest n operand :=
  funext chain_apply

/-- Where no operator of the tier follows, the chain ends. -/
theorem chainRest_end {n : Nat} {operand : Rule Expr} {left : Expr} {ts : List Token}
    (h : ∀ op ∈ ts.head?, tier? op.kind ≠ some n) :
    chainRest n operand left ts = .parsed left [] ts := by
  cases ts with
  | nil => rfl
  | cons op rest =>
    rw [chainRest, chainFrom_cons, if_neg (h op rfl)]

/-- An operator of the tier and an operand go on with the chain. -/
theorem chainRest_cons {n : Nat} {operand : Rule Expr} (h : operand.Advances) {left : Expr}
    {op : Token} {rest : List Token} (hop : tier? op.kind = some n) :
    chainRest n operand left (op :: rest) =
      (operand rest).andThen fun right => chainRest n operand (join left op right) := by
  rw [chainRest, chainFrom_cons, if_pos hop]
  cases hr : operand rest with
  | failed e es mid => rfl
  | parsed right es mid =>
    have hmid : mid.length ≤ rest.length := by
      have := (h rest).length_le
      rwa [hr] at this
    simp only [Reply.andThen, chainRest,
      chainFrom_budget h rest mid _ mid hmid (Nat.le_refl _)]

theorem advances_chain {n : Nat} {operand : Rule Expr} (h : operand.Advances) :
    (chain n operand).Advances := by
  rw [chain_eq]
  exact h.bind fun left mid => leaves_chainFrom h mid left mid

/-! ## Expressions -/

variable {inner : Rules Rule}

theorem advances_grouped (h : inner.Advance) : (grouped inner).Advances :=
  h.expression.bind fun _ => (advances_expectAfter (by decide) _).bind fun _ => advances_pure _

theorem advances_primary (h : inner.Advance) : (primary inner).Advances := by
  intro ts
  cases ts with
  | nil => exact Leaves.refl []
  | cons t ts =>
    rw [primary_cons]
    split
    next hk => exact Leaves.cons ts (by simp [hk])
    next hk => exact (Leaves.cons ts (by simp [hk])).trans (advances_grouped h ts)
    next =>
      split
      next v hv =>
        refine Leaves.cons ts ?_
        intro he
        simp [value?, he] at hv
      next => exact Leaves.refl (t :: ts)

theorem advances_unary (h : inner.Advance) : (unary inner).Advances := by
  intro ts
  cases ts with
  | nil => exact advances_primary h []
  | cons t ts =>
    rw [unary_cons]
    split
    next hk =>
      have hne : t.kind ≠ .eof := by rcases hk with hk | hk <;> simp [hk]
      exact leaves_andThen ((Leaves.cons ts hne).trans (h.operand ts)) fun e mid =>
        Leaves.refl mid
    next => exact advances_primary h (t :: ts)

theorem advances_upTo (h : inner.Advance) (n : Nat) : (upTo inner n).Advances := by
  induction n with
  | zero => exact advances_unary h
  | succ n ih => exact advances_chain ih

theorem advances_assignment (h : inner.Advance) : (assignment inner).Advances := by
  refine (advances_upTo h tiers).bind fun target => (advances_accept (by decide)).bind fun o => ?_
  cases o with
  | none => exact advances_pure target
  | some sign =>
    refine h.expression.bind fun value => ?_
    split
    · exact advances_pure _
    · exact (advances_note _).bind fun _ => advances_pure target

/-! ## Lists of declarations -/

/-- What is true where a list of declarations ends, and stays true with one more turn in front, is
true of every list of declarations. -/
theorem batch_induction {stop : Kind → Bool} {d : Rule Stmt}
    {motive : List Token → Batch → Prop} (hend : ∀ ts, motive ts ⟨[], [], ts⟩)
    (hturn : ∀ ts b, ¬ stop (peek ts).kind = true → motive (attempt d ts).rest b →
      motive ts ((attempt d ts).andThen fun _ => b)) (ts : List Token) :
    motive ts (batch stop d ts) := by
  have hwithin : ∀ budget ts, motive ts (batchWithin stop d budget ts) := by
    intro budget
    induction budget with
    | nil => exact hend
    | cons b budget ih =>
      intro ts
      rw [batchWithin_cons]
      split
      · exact hend ts
      next hgo => exact hturn ts _ hgo (ih (attempt d ts).rest)
  rw [batch_eq_batchWithin]
  exact hwithin ts ts

theorem leaves_attempt {d : Rule Stmt} (h : d.Advances) (ts : List Token) :
    Leaves ts (attempt d ts).rest := by
  have hs := h ts
  rw [attempt_eq]
  split
  next s noted rest hd => rwa [hd] at hs
  next e noted rest hd =>
    rw [hd] at hs
    exact hs.trans (leaves_synchronize rest)

/-- Every turn takes a token, unless the input has ended. -/
theorem length_attempt_lt {d : Rule Stmt} (h : d.Advances) (ht : d.Takes) {ts : List Token}
    (hts : (peek ts).kind ≠ .eof) : (attempt d ts).rest.length < ts.length := by
  have hs := h ts
  rw [attempt_eq]
  split
  next s noted rest hd => exact ht ts s noted rest hd
  next e noted rest hd =>
    rw [hd] at hs
    cases rest with
    | nil =>
      cases ts with
      | nil => exact absurd rfl hts
      | cons t ts => exact Nat.succ_pos _
    | cons t rest =>
      by_cases hk : t.kind = .eof
      · -- the rule failed at the end of input, which is not where it began
        have hne : t :: rest ≠ ts := by
          rintro rfl
          exact hts hk
        show (synchronize (t :: rest)).length < ts.length
        rw [synchronize, if_pos hk]
        exact Nat.lt_of_le_of_ne hs.length_le fun hl => hne (hs.eq_of_length hl)
      · exact Nat.lt_of_lt_of_le (length_synchronize_lt rest hk) hs.length_le

/-- Where a list of declarations goes on, the input has not ended. -/
theorem ne_eof_of_go {stop : Kind → Bool} (hstop : stop .eof = true) {ts : List Token}
    (hgo : ¬ stop (peek ts).kind = true) : (peek ts).kind ≠ .eof := by
  intro hk
  rw [hk] at hgo
  exact hgo hstop

theorem batchWithin_budget {stop : Kind → Bool} (hstop : stop .eof = true) {d : Rule Stmt}
    (h : d.Advances) (ht : d.Takes) (b b' ts : List Token) (hb : ts.length ≤ b.length)
    (hb' : ts.length ≤ b'.length) : batchWithin stop d b ts = batchWithin stop d b' ts := by
  have hnil : ∀ b, batchWithin stop d b [] = ⟨[], [], []⟩ := by
    intro b
    cases b with
    | nil => rfl
    | cons x b => rw [batchWithin_cons, if_pos (show stop (peek []).kind = true from hstop)]
  induction b generalizing b' ts with
  | nil =>
    have : ts = [] := List.eq_nil_of_length_eq_zero (Nat.le_zero.1 hb)
    subst this
    rw [hnil, hnil]
  | cons x b ih =>
    cases b' with
    | nil =>
      have : ts = [] := List.eq_nil_of_length_eq_zero (Nat.le_zero.1 hb')
      subst this
      rw [hnil, hnil]
    | cons x' b' =>
      rw [batchWithin_cons, batchWithin_cons]
      split
      · rfl
      next hk =>
        have hlt := length_attempt_lt h ht (ne_eof_of_go hstop hk)
        rw [List.length_cons] at hb hb'
        rw [Batch.andThen, Batch.andThen, ih b' _ (by omega) (by omega)]

/-- A list of declarations is one declaration after the other. -/
theorem batch_eq {stop : Kind → Bool} (hstop : stop .eof = true) {d : Rule Stmt}
    (h : d.Advances) (ht : d.Takes) (ts : List Token) :
    batch stop d ts =
      if stop (peek ts).kind then ⟨[], [], ts⟩ else (attempt d ts).andThen (batch stop d) := by
  cases ts with
  | nil =>
    rw [if_pos (show stop (peek []).kind = true from hstop)]
    rfl
  | cons t ts =>
    rw [batch_eq_batchWithin, batchWithin_cons]
    split
    · rfl
    next hk =>
      have hlt := length_attempt_lt h ht (ne_eof_of_go hstop hk)
      rw [List.length_cons] at hlt
      rw [Batch.andThen, Batch.andThen, batch_eq_batchWithin,
        batchWithin_budget hstop h ht ts _ _ (by omega) (Nat.le_refl _)]

theorem leaves_batch (stop : Kind → Bool) {d : Rule Stmt} (h : d.Advances) (ts : List Token) :
    Leaves ts (batch stop d ts).rest := by
  refine batch_induction (motive := fun ts b => Leaves ts b.rest) Leaves.refl ?_ ts
  intro ts b _ hb
  exact (leaves_attempt h ts).trans hb

/-- A list of declarations ends where it stops. -/
theorem stop_rest_batch {stop : Kind → Bool} (hstop : stop .eof = true) {d : Rule Stmt}
    (hadv : d.Advances) (htakes : d.Takes) (ts : List Token) :
    stop (peek (batch stop d ts).rest).kind = true := by
  generalize hm : ts.length = m
  induction m using Nat.strongRecOn generalizing ts with
  | ind m ih =>
    rw [batch_eq hstop hadv htakes]
    split
    next hend => exact hend
    next hgo =>
      have hlt := length_attempt_lt hadv htakes (ne_eof_of_go hstop hgo)
      exact ih _ (hm ▸ hlt) _ rfl

/-! ## Statements -/

theorem advances_expressionStatement (h : inner.Advance) : (expressionStatement inner).Advances :=
  h.expression.bind fun _ => (advances_expectAfter (by decide) _).bind fun _ => advances_pure _

theorem takes_expressionStatement (h : inner.Advance) : (expressionStatement inner).Takes :=
  h.expression.bind_takes fun _ => (takes_expect _ _).bind fun _ => advances_pure _

theorem advances_printStatement (h : inner.Advance) : (printStatement inner).Advances :=
  h.expression.bind fun _ => (advances_expectAfter (by decide) _).bind fun _ => advances_pure _

/-- What follows the name in a declaration. -/
theorem advances_afterName (h : inner.Advance) (name : Token) : (do
    let initial ← match ← accept .equal with
      | some _ => some <$> inner.expression
      | none => pure none
    let _ ← expectAfter .semicolon .declaration
    return Stmt.declare name initial : Rule Stmt).Advances := by
  have hend : ∀ initial, (do
      let _ ← expectAfter .semicolon .declaration
      return Stmt.declare name initial : Rule Stmt).Advances :=
    fun initial => (advances_expectAfter (by decide) _).bind fun _ => advances_pure _
  refine (advances_accept (by decide)).bind fun o => ?_
  cases o with
  | none => exact (advances_pure _).bind hend
  | some t => exact (h.expression.map _).bind hend

theorem advances_varDeclaration (h : inner.Advance) : (varDeclaration inner).Advances :=
  (advances_expect (by decide) _).bind (advances_afterName h)

theorem takes_varDeclaration (h : inner.Advance) : (varDeclaration inner).Takes :=
  (takes_expect _ _).bind (advances_afterName h)

theorem advances_declaration (h : inner.Advance) : (declaration inner).Advances := by
  refine (advances_accept (by decide)).bind fun o => ?_
  cases o with
  | none => exact h.statement
  | some t => exact advances_varDeclaration h

theorem takes_declaration (h : inner.Advance) : (declaration inner).Takes := by
  refine (advances_accept (by decide)).bind_takes fun o => ?_
  cases o with
  | none => exact h.takes
  | some t => exact takes_varDeclaration h

theorem advances_blockBody (h : inner.Advance) : (blockBody inner).Advances := by
  intro ts
  rw [blockBody_apply]
  exact leaves_batch endsBlock (advances_declaration h) ts

theorem advances_blockStatement (h : inner.Advance) : (blockStatement inner).Advances :=
  (advances_blockBody h).bind fun _ =>
    (advances_expectAfter (by decide) _).bind fun _ => advances_pure _

theorem advances_ifStatement (h : inner.Advance) : (ifStatement inner).Advances := by
  refine (advances_expectAfter (by decide) _).bind fun _ => h.expression.bind fun c =>
    (advances_expectAfter (by decide) _).bind fun _ => h.statement.bind fun yes =>
      (advances_accept (by decide)).bind fun o => ?_
  cases o with
  | none => exact advances_pure _
  | some t => exact h.statement.bind fun _ => advances_pure _

theorem advances_whileStatement (h : inner.Advance) : (whileStatement inner).Advances :=
  (advances_expectAfter (by decide) _).bind fun _ => h.expression.bind fun _ =>
    (advances_expectAfter (by decide) _).bind fun _ => h.statement.bind fun _ => advances_pure _

theorem advances_forInitial (h : inner.Advance) : (forInitial inner).Advances := by
  refine (advances_accept (by decide)).bind fun o => ?_
  split
  · exact advances_pure none
  · refine (advances_accept (by decide)).bind fun o => ?_
    split
    · exact (advances_varDeclaration h).bind fun _ => advances_pure _
    · exact (advances_expressionStatement h).bind fun _ => advances_pure _

theorem advances_optional (h : inner.Advance) (closing : Kind) :
    (Grammar.optional inner closing).Advances := by
  refine advances_nextKind.bind fun k => ?_
  split
  · exact advances_pure none
  · exact h.expression.bind fun _ => advances_pure _

theorem advances_forStatement (h : inner.Advance) : (forStatement inner).Advances :=
  (advances_expectAfter (by decide) _).bind fun _ => (advances_forInitial h).bind fun _ =>
    (advances_optional h _).bind fun _ => (advances_expectAfter (by decide) _).bind fun _ =>
      (advances_optional h _).bind fun _ => (advances_expectAfter (by decide) _).bind fun _ =>
        h.statement.bind fun _ => advances_pure _

theorem advances_statement (h : inner.Advance) : (statement inner).Advances := by
  intro ts
  cases ts with
  | nil =>
    rw [statement_nil]
    exact advances_expressionStatement h []
  | cons t ts =>
    rw [statement_cons]
    split
    next hk => exact (Leaves.cons ts (by simp [hk])).trans (advances_forStatement h ts)
    next hk => exact (Leaves.cons ts (by simp [hk])).trans (advances_ifStatement h ts)
    next hk => exact (Leaves.cons ts (by simp [hk])).trans (advances_printStatement h ts)
    next hk => exact (Leaves.cons ts (by simp [hk])).trans (advances_whileStatement h ts)
    next hk => exact (Leaves.cons ts (by simp [hk])).trans (advances_blockStatement h ts)
    next => exact advances_expressionStatement h (t :: ts)

theorem takes_statement (h : inner.Advance) : (statement inner).Takes := by
  intro ts s es rest hs
  cases ts with
  | nil =>
    rw [statement_nil] at hs
    exact takes_expressionStatement h [] s es rest hs
  | cons t ts =>
    rw [statement_cons] at hs
    split at hs
    · exact Nat.lt_succ_of_le ((advances_forStatement h).length_le hs)
    · exact Nat.lt_succ_of_le ((advances_ifStatement h).length_le hs)
    · exact Nat.lt_succ_of_le ((advances_printStatement h).length_le hs)
    · exact Nat.lt_succ_of_le ((advances_whileStatement h).length_le hs)
    · exact Nat.lt_succ_of_le ((advances_blockStatement h).length_le hs)
    · exact takes_expressionStatement h (t :: ts) s es rest hs

/-- The rules of every level of nesting advance. -/
theorem advances_rules (n : Nat) : (rules n).Advance := by
  induction n with
  | zero =>
    refine ⟨advances_fail _, advances_fail _, advances_fail _, ?_⟩
    intro ts s es rest h
    exact absurd h (by simp [rules, closed, fail])
  | succ n ih =>
    exact ⟨advances_assignment ih, advances_unary ih, advances_statement ih, takes_statement ih⟩

end Grammar
end Lox
