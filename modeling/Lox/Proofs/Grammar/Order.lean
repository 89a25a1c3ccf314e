import Lox.Proofs.Grammar.Nesting
import Lox.Proofs.Token.Lines

/-!
# The order of syntax errors

Errors are kept in the order in which they are found.  A rule that fails does so at the next
token, so its error is found where it stands.  A bad target stands at its equals sign, but it is
found only when the right side of the assignment has been read, behind the bad targets that stand
there.  This file says where every error stands and where it was found, and what follows for
their order.

* `Finding`, `Finding.Sound` — an error with its two places, and how they are related.
* `Finding.Ordered` — of two errors, the one found first stands first, or it is a bad target in
  the right side of another.
* `Rule.Finds` — a rule finds its errors in this way; `finds_rules` has it for every level.
* `errors_in_source_order_iff` — when the errors of a program are in source order.
* `parseExpression_reports_first_iff` — when the error that is told of an expression is the one
  found first.
-/

namespace Lox

open Rule Grammar

variable {α β : Type}

/-! ## Findings -/

/-- A syntax error with two places of a token list, each given by the tokens from there on. -/
structure Finding where
  error : ParseError
  /-- The tokens from the one at which the error stands. -/
  place : List Token
  /-- The tokens that were left when the error was found. -/
  left : List Token

namespace Finding

/-- How errors are found. -/
inductive Sound : Finding → Prop where
  /-- A rule that fails does so at the next token. -/
  | raised {fault : Fault} (ts : List Token) (hfault : fault ≠ .badTarget) :
      Sound ⟨⟨fault, peek ts⟩, ts, ts⟩
  /-- A bad target stands at its equals sign, and is found behind the expression on the right. -/
  | target {n : Nat} {sign : Token} {ts rest : List Token} {value : Expr}
      {noted : List ParseError} (hsign : sign.kind = .equal)
      (hvalue : (rules n).expression ts = .parsed value noted rest) :
      Sound ⟨⟨.badTarget, sign⟩, sign :: ts, rest⟩

/-- The error `a` stands before `b` or at the same token. -/
def Precedes (a b : Finding) : Prop := Leaves a.place b.place

/-- Both errors are bad targets, and `a` stands in the right side of the assignment that `b` is
about. -/
def Inside (a b : Finding) : Prop :=
  a.error.fault = .badTarget ∧ b.error.fault = .badTarget ∧
    ∃ sign right, b.place = sign :: right ∧ Leaves right a.place ∧ Leaves a.place b.left

/-- The error `a` was found before `b`; it also stands before it, or it is inside. -/
def Ordered (a b : Finding) : Prop := Leaves a.left b.left ∧ (a.Precedes b ∨ a.Inside b)

/-- A bad target stands at an equals sign, and what is behind that has been read. -/
theorem Sound.at_sign {f : Finding} (h : f.Sound) (hf : f.error.fault = .badTarget) :
    ∃ behind, f.place = f.error.token :: behind ∧ f.error.token.kind = .equal ∧
      Leaves behind f.left := by
  cases h with
  | raised ts hfault => exact absurd hf hfault
  | @target n sign ts rest value noted hsign hvalue =>
    have hread := (advances_rules n).expression ts
    rw [hvalue] at hread
    exact ⟨ts, rfl, hsign, hread⟩

/-- No error is found before the place where it stands. -/
theorem Sound.leaves {f : Finding} (h : f.Sound) : Leaves f.place f.left := by
  cases h with
  | raised ts hfault => exact Leaves.refl ts
  | target hsign hvalue =>
    obtain ⟨behind, hplace, -, hread⟩ := (Sound.target hsign hvalue).at_sign rfl
    rw [hplace]
    exact (Leaves.cons behind (by simp [hsign])).trans hread

theorem Sound.peek_place {f : Finding} (h : f.Sound) : peek f.place = f.error.token := by
  cases h <;> rfl

/-- An error inside another one stands behind it. -/
theorem Inside.precedes {a b : Finding} (h : a.Inside b) (hb : b.Sound) : b.Precedes a := by
  obtain ⟨-, hfault, sign, right, hplace, hright, -⟩ := h
  obtain ⟨behind, hplace', hsign, -⟩ := hb.at_sign hfault
  obtain ⟨rfl, rfl⟩ := List.cons_eq_cons.1 (hplace.symm.trans hplace')
  rw [Precedes, hplace]
  exact (Leaves.cons right (by simp [hsign])).trans hright

theorem Inside.not_precedes {a b : Finding} (h : a.Inside b) : ¬ a.Precedes b := by
  obtain ⟨-, -, sign, right, hplace, hright, -⟩ := h
  intro hle
  have h₁ := hle.length_le
  have h₂ := hright.length_le
  rw [hplace, List.length_cons] at h₁
  omega

end Finding

/-- From the tokens `ts` to the tokens `rest` these errors are found, one after the other. -/
structure Found (ts : List Token) (found : List Finding) (rest : List Token) : Prop where
  leaves : Leaves ts rest
  sound : ∀ f ∈ found, f.Sound
  within : ∀ f ∈ found, Leaves ts f.place ∧ Leaves f.left rest
  ordered : found.Pairwise Finding.Ordered

namespace Found

variable {ts mid rest : List Token} {found found' : List Finding}

theorem nil (h : Leaves ts rest) : Found ts [] rest :=
  ⟨h, by simp, by simp, .nil⟩

/-- What is found first lies before what is found then. -/
theorem append (h : Found ts found mid) (h' : Found mid found' rest) :
    Found ts (found ++ found') rest := by
  refine ⟨h.leaves.trans h'.leaves, List.forall_mem_append.2 ⟨h.sound, h'.sound⟩,
    List.forall_mem_append.2 ⟨?_, ?_⟩, List.pairwise_append.2 ⟨h.ordered, h'.ordered, ?_⟩⟩
  · intro f hf
    exact ⟨(h.within f hf).1, (h.within f hf).2.trans h'.leaves⟩
  · intro f hf
    exact ⟨h.leaves.trans (h'.within f hf).1, (h'.within f hf).2⟩
  · intro a ha b hb
    have hplace : Leaves a.left b.place := (h.within a ha).2.trans (h'.within b hb).1
    exact ⟨hplace.trans (h'.sound b hb).leaves, .inl ((h.sound a ha).leaves.trans hplace)⟩

theorem raised {fault : Fault} (hfault : fault ≠ .badTarget) (h : Leaves ts rest) :
    Found ts [⟨⟨fault, peek ts⟩, ts, ts⟩] rest :=
  ⟨h, by simpa using .raised ts hfault, by simpa using ⟨Leaves.refl ts, h⟩,
    List.pairwise_singleton _ _⟩

/-- A bad target is found behind those in the right side of its assignment. -/
theorem target {n : Nat} {sign : Token} {value : Expr} (hsign : sign.kind = .equal)
    (hvalue : (rules n).expression ts = .parsed value (found.map Finding.error) rest)
    (h : Found ts found rest) :
    Found (sign :: ts) (found ++ [⟨⟨.badTarget, sign⟩, sign :: ts, rest⟩]) rest := by
  have hsound : Finding.Sound ⟨⟨.badTarget, sign⟩, sign :: ts, rest⟩ := .target hsign hvalue
  have hcons : Leaves (sign :: ts) ts := Leaves.cons ts (by simp [hsign])
  have hnoted : ∀ f ∈ found, f.error.fault = .badTarget := by
    have hnotes := (notes_expression n).1 ts trivial
    rw [hvalue] at hnotes
    cases hnotes with
    | parsed value errors left => exact fun f hf => errors f.error (List.mem_map_of_mem hf)
  refine ⟨hsound.leaves, List.forall_mem_append.2 ⟨h.sound, by simpa using hsound⟩,
    List.forall_mem_append.2 ⟨?_, by simpa using ⟨Leaves.refl _, Leaves.refl _⟩⟩,
    List.pairwise_append.2 ⟨h.ordered, List.pairwise_singleton _ _, ?_⟩⟩
  · intro f hf
    exact ⟨hcons.trans (h.within f hf).1, (h.within f hf).2⟩
  · intro a ha b hb
    obtain rfl := List.mem_singleton.1 hb
    obtain ⟨hplace, hleft⟩ := h.within a ha
    exact ⟨hleft, .inr ⟨hnoted a ha, rfl, sign, ts, rfl, hplace,
      (h.sound a ha).leaves.trans hleft⟩⟩

end Found

/-! ## Rules -/

/-- The errors of a reply were found from `ts` on; the one that ended the rule stands at the next
token and is no bad target. -/
inductive Reply.Finds (ts : List Token) : Reply α → Prop where
  | parsed {a : α} {found : List Finding} {rest : List Token} (h : Found ts found rest) :
      Finds ts (.parsed a (found.map Finding.error) rest)
  | failed {fault : Fault} {found : List Finding} {rest : List Token} (h : Found ts found rest)
      (hfault : fault ≠ .badTarget) :
      Finds ts (.failed ⟨fault, peek rest⟩ (found.map Finding.error) rest)

namespace Reply.Finds

variable {ts mid : List Token} {r : Reply α}

theorem after {found : List Finding} (h : r.Finds mid) (hfound : Found ts found mid) :
    (r.after (found.map Finding.error)).Finds ts := by
  cases h with
  | parsed h =>
    rw [Reply.after, ← List.map_append]
    exact .parsed (hfound.append h)
  | failed h hfault =>
    rw [Reply.after, ← List.map_append]
    exact .failed (hfound.append h) hfault

/-- The tokens before may be taken without an error. -/
theorem of_leaves (h : r.Finds mid) (hleaves : Leaves ts mid) : r.Finds ts := by
  have hafter := h.after (.nil hleaves)
  rwa [List.map_nil, Reply.after_nil] at hafter

theorem cons (h : r.Finds ts) {t : Token} (ht : t.kind ≠ .eof) : r.Finds (t :: ts) :=
  h.of_leaves (Leaves.cons ts ht)

theorem andThen {f : α → List Token → Reply β} (h : r.Finds ts)
    (hf : ∀ a mid, (f a mid).Finds mid) : (r.andThen f).Finds ts := by
  cases h with
  | failed h hfault => exact .failed h hfault
  | @parsed a found mid h => exact (hf a mid).after h

end Reply.Finds

/-- The errors of a rule are found where it reads. -/
def Rule.Finds (p : Rule α) : Prop := ∀ ts, (p ts).Finds ts

namespace Rule

theorem finds_pure (a : α) : (pure a : Rule α).Finds := fun ts => .parsed (.nil (Leaves.refl ts))

theorem finds_nextKind : nextKind.Finds := fun ts => .parsed (.nil (Leaves.refl ts))

theorem finds_fail {fault : Fault} (hfault : fault ≠ .badTarget) : (fail fault : Rule α).Finds :=
  fun ts => .failed (.nil (Leaves.refl ts)) hfault

theorem Finds.bind {p : Rule α} {f : α → Rule β} (hp : p.Finds) (hf : ∀ a, (f a).Finds) :
    (p >>= f).Finds :=
  fun ts => (hp ts).andThen hf

theorem Finds.map {p : Rule α} (hp : p.Finds) (f : α → β) : (f <$> p).Finds :=
  hp.bind fun a => finds_pure (f a)

theorem finds_accept {kind : Kind} (hkind : kind ≠ .eof) : (accept kind).Finds := by
  intro ts
  cases ts with
  | nil => exact finds_pure none []
  | cons t ts =>
    rw [accept_cons]
    split
    next ht => exact (finds_pure (some t) ts).cons (by rwa [ht])
    next => exact finds_pure none (t :: ts)

theorem finds_expect {kind : Kind} {fault : Fault} (hkind : kind ≠ .eof)
    (hfault : fault ≠ .badTarget) : (expect kind fault).Finds := by
  refine (finds_accept hkind).bind fun o => ?_
  cases o with
  | none => exact finds_fail hfault
  | some t => exact finds_pure t

theorem finds_expectAfter {kind : Kind} (hkind : kind ≠ .eof) (place : Place) :
    (expectAfter kind place).Finds :=
  finds_expect hkind (by simp)

end Rule

/-- The rules of a level find their errors where they read. -/
structure Rules.Find (inner : Rules Rule) : Prop where
  expression : inner.expression.Finds
  operand : inner.operand.Finds
  statement : inner.statement.Finds

namespace Grammar

variable {inner : Rules Rule}

/-! ### Expressions -/

theorem finds_chainFrom {n : Nat} {operand : Rule Expr} (h : operand.Finds)
    (budget : List Token) (left : Expr) : Rule.Finds (chainFrom n operand budget left) := by
  induction budget generalizing left with
  | nil => exact finds_pure left
  | cons b budget ih =>
    intro ts
    cases ts with
    | nil => exact finds_pure left []
    | cons op rest =>
      rw [chainFrom_cons]
      split
      next hop =>
        have hne : op.kind ≠ .eof := by
          intro he
          rw [he] at hop
          cases hop
        exact ((h rest).andThen fun right => ih (join left op right)).cons hne
      next => exact finds_pure left (op :: rest)

theorem finds_chain {n : Nat} {operand : Rule Expr} (h : operand.Finds) :
    (chain n operand).Finds := by
  rw [chain_eq]
  exact h.bind fun left rest => finds_chainFrom h rest left rest

theorem finds_primary (h : inner.Find) : (primary inner).Finds := by
  have hgrouped : (grouped inner).Finds :=
    h.expression.bind fun _ => (finds_expectAfter (by decide) _).bind fun _ => finds_pure _
  intro ts
  cases ts with
  | nil => exact finds_fail (by simp) []
  | cons t ts =>
    rw [primary_cons]
    split
    next hk => exact (finds_pure (Expr.var t) ts).cons (by simp [hk])
    next hk => exact (hgrouped ts).cons (by simp [hk])
    next =>
      split
      next v hv =>
        refine (finds_pure (Expr.literal v) ts).cons ?_
        intro he
        simp [value?, he] at hv
      next => exact finds_fail (by simp) (t :: ts)

theorem finds_unary (h : inner.Find) : (unary inner).Finds := by
  intro ts
  cases ts with
  | nil => exact finds_primary h []
  | cons t ts =>
    rw [unary_cons]
    split
    next hk =>
      have hsigned : (inner.operand >>= fun e => pure (Expr.unary t e)).Finds :=
        h.operand.bind fun _ => finds_pure _
      exact (hsigned ts).cons (by rcases hk with hk | hk <;> simp [hk])
    next => exact finds_primary h (t :: ts)

theorem finds_upTo (h : inner.Find) (n : Nat) : (upTo inner n).Finds := by
  induction n with
  | zero => exact finds_unary h
  | succ n ih => exact finds_chain ih

/-- Behind the target of an assignment: a bad target is noted when its right side was read. -/
theorem finds_assignment {n : Nat} (h : (rules n).Find) : (assignment (rules n)).Finds := by
  refine (finds_upTo h tiers).bind fun target => ?_
  intro ts
  cases ts with
  | nil => exact finds_pure target []
  | cons sign ts =>
    rw [bind_apply, lift_eq, accept_cons]
    split
    next hsign =>
      have hne : sign.kind ≠ .eof := by simp [hsign]
      have hvalue := h.expression ts
      simp only [Reply.andThen, Reply.after_nil, bind_apply]
      generalize hr : (rules n).expression ts = r at hvalue ⊢
      cases hvalue with
      | failed hfound hfault => exact .failed ((Found.nil (.cons ts hne)).append hfound) hfault
      | @parsed value found rest hfound =>
        simp only
        split
        · exact ((finds_pure _ rest).after hfound).cons hne
        · have hnoted : found.map Finding.error ++ [⟨.badTarget, sign⟩] = List.map Finding.error
              (found ++ [⟨⟨.badTarget, sign⟩, sign :: ts, rest⟩]) := by simp
          simp only [lift_eq, bind_apply, note, pure_apply, Reply.andThen, Reply.after,
            List.append_nil, hnoted]
          exact .parsed (.target hsign hr hfound)
    next => exact finds_pure target (sign :: ts)

/-! ### Lists of declarations -/

theorem found_attempt {d : Rule Stmt} (h : d.Finds) (ts : List Token) :
    ∃ found, found.map Finding.error = (attempt d ts).errors ∧
      Found ts found (attempt d ts).rest := by
  have hturn := h ts
  rw [attempt_eq]
  generalize d ts = r at hturn
  cases hturn with
  | @parsed s found rest hfound => exact ⟨found, rfl, hfound⟩
  | @failed fault found rest hfound hfault =>
    exact ⟨found ++ [⟨⟨fault, peek rest⟩, rest, rest⟩], by simp,
      hfound.append (.raised hfault (leaves_synchronize rest))⟩

theorem found_batch {d : Rule Stmt} (h : d.Finds) (stop : Kind → Bool) (ts : List Token) :
    ∃ found, found.map Finding.error = (batch stop d ts).errors ∧
      Found ts found (batch stop d ts).rest := by
  refine batch_induction (motive := fun ts b =>
    ∃ found, found.map Finding.error = b.errors ∧ Found ts found b.rest) ?_ ?_ ts
  · exact fun ts => ⟨[], rfl, .nil (Leaves.refl ts)⟩
  · rintro ts b - ⟨later, hlater, hfound'⟩
    obtain ⟨now, hnow, hfound⟩ := found_attempt h ts
    refine ⟨now ++ later, ?_, hfound.append hfound'⟩
    rw [List.map_append, hnow, hlater]
    rfl

/-! ### Statements -/

theorem finds_varDeclaration (h : inner.Find) : (varDeclaration inner).Finds := by
  refine (finds_expect (by decide) (by simp)).bind fun name =>
    (finds_accept (by decide)).bind fun o => ?_
  have hclose : ∀ initial, (do
      let _ ← expectAfter .semicolon .declaration
      return Stmt.declare name initial : Rule Stmt).Finds :=
    fun initial => (finds_expectAfter (by decide) _).bind fun _ => finds_pure _
  cases o with
  | none => exact (finds_pure none).bind hclose
  | some sign => exact (h.expression.map some).bind hclose

theorem finds_expressionStatement (h : inner.Find) : (expressionStatement inner).Finds :=
  h.expression.bind fun _ => (finds_expectAfter (by decide) _).bind fun _ => finds_pure _

theorem finds_printStatement (h : inner.Find) : (printStatement inner).Finds :=
  h.expression.bind fun _ => (finds_expectAfter (by decide) _).bind fun _ => finds_pure _

theorem finds_declaration (h : inner.Find) : (declaration inner).Finds := by
  refine (finds_accept (by decide)).bind fun o => ?_
  cases o with
  | none => exact h.statement
  | some word => exact finds_varDeclaration h

theorem finds_blockStatement (h : inner.Find) : (blockStatement inner).Finds := by
  have hbody : (blockBody inner).Finds := by
    intro ts
    obtain ⟨found, herrors, hfound⟩ := found_batch (finds_declaration h) endsBlock ts
    rw [blockBody_apply, Batch.reply, ← herrors]
    exact .parsed hfound
  exact hbody.bind fun _ => (finds_expectAfter (by decide) _).bind fun _ => finds_pure _

theorem finds_ifStatement (h : inner.Find) : (ifStatement inner).Finds := by
  refine (finds_expectAfter (by decide) _).bind fun _ => h.expression.bind fun c =>
    (finds_expectAfter (by decide) _).bind fun _ => h.statement.bind fun yes =>
      (finds_accept (by decide)).bind fun o => ?_
  cases o with
  | none => exact finds_pure _
  | some word => exact h.statement.bind fun _ => finds_pure _

theorem finds_whileStatement (h : inner.Find) : (whileStatement inner).Finds :=
  (finds_expectAfter (by decide) _).bind fun _ => h.expression.bind fun _ =>
    (finds_expectAfter (by decide) _).bind fun _ => h.statement.bind fun _ => finds_pure _

theorem finds_forInitial (h : inner.Find) : (forInitial inner).Finds := by
  refine (finds_accept (by decide)).bind fun semicolon => ?_
  split
  · exact finds_pure none
  · refine (finds_accept (by decide)).bind fun word => ?_
    split
    · exact (finds_varDeclaration h).bind fun _ => finds_pure _
    · exact (finds_expressionStatement h).bind fun _ => finds_pure _

theorem finds_optional (h : inner.Find) (closing : Kind) :
    (Grammar.optional inner closing).Finds := by
  refine finds_nextKind.bind fun kind => ?_
  split
  · exact finds_pure none
  · exact h.expression.bind fun _ => finds_pure _

theorem finds_forStatement (h : inner.Find) : (forStatement inner).Finds :=
  (finds_expectAfter (by decide) _).bind fun _ => (finds_forInitial h).bind fun _ =>
    (finds_optional h _).bind fun _ => (finds_expectAfter (by decide) _).bind fun _ =>
      (finds_optional h _).bind fun _ => (finds_expectAfter (by decide) _).bind fun _ =>
        h.statement.bind fun _ => finds_pure _

theorem finds_statement (h : inner.Find) : (statement inner).Finds := by
  intro ts
  cases ts with
  | nil =>
    rw [statement_nil]
    exact finds_expressionStatement h []
  | cons t ts =>
    rw [statement_cons]
    split
    next hk => exact (finds_forStatement h ts).cons (by simp [hk])
    next hk => exact (finds_ifStatement h ts).cons (by simp [hk])
    next hk => exact (finds_printStatement h ts).cons (by simp [hk])
    next hk => exact (finds_whileStatement h ts).cons (by simp [hk])
    next hk => exact (finds_blockStatement h ts).cons (by simp [hk])
    next => exact finds_expressionStatement h (t :: ts)

/-- The rules of every level of nesting find their errors where they read. -/
theorem finds_rules (n : Nat) : (rules n).Find := by
  induction n with
  | zero => exact ⟨finds_fail (by simp), finds_fail (by simp), finds_fail (by simp)⟩
  | succ n ih => exact ⟨finds_assignment ih, finds_unary ih, finds_statement ih⟩

theorem found_parse (tokens : List Token) :
    ∃ found rest, found.map Finding.error = (parse tokens).errors ∧ Found tokens found rest := by
  obtain ⟨found, herrors, hfound⟩ :=
    found_batch (finds_declaration (finds_rules maxNesting)) endsProgram tokens
  exact ⟨found, _, herrors, hfound⟩

end Grammar

/-! ## Programs -/

/-- Lines do not go back, and the input ends. -/
structure InLines (ts : List Token) : Prop where
  sorted : ts.Pairwise fun t u => t.line ≤ u.line
  ends : ∃ t ∈ ts, t.kind = .eof

theorem inLines_scan (source : String) : InLines (scan source).tokens :=
  ⟨sorted_scan source, exists_eof_mem_scan source⟩

theorem Leaves.inLines {ts mid : List Token} (h : Leaves ts mid) (hts : InLines ts) :
    InLines mid := by
  obtain ⟨w, rfl, hw⟩ := h
  obtain ⟨t, ht, hk⟩ := hts.ends
  refine ⟨(List.pairwise_append.1 hts.sorted).2.1, t, ?_, hk⟩
  exact (List.mem_append.1 ht).resolve_left fun ht => hw t ht hk

theorem Leaves.line_le {ts mid : List Token} (h : Leaves ts mid) (hts : InLines ts) :
    (peek ts).line ≤ (peek mid).line := by
  obtain ⟨u, hu, -⟩ := (h.inLines hts).ends
  obtain ⟨w, rfl, -⟩ := h
  cases w with
  | nil => exact Nat.le_refl _
  | cons t w =>
    cases mid with
    | nil => cases hu
    | cons u mid => exact List.rel_of_pairwise_cons hts.sorted (by simp [peek])

/-- Errors that stand one behind the other are on lines in the same order. -/
theorem Finding.Precedes.line_le {a b : Finding} (h : a.Precedes b) (ha : a.Sound) (hb : b.Sound)
    (hplace : InLines a.place) : a.error.line ≤ b.error.line := by
  have hle := Leaves.line_le h hplace
  rwa [ha.peek_place, hb.peek_place] at hle

/-- Errors in source order are on lines in that order, and so is an error inside another one. -/
theorem Found.ordered_lines {ts rest : List Token} {found : List Finding}
    (h : Found ts found rest) (hts : InLines ts) :
    found.Pairwise fun a b => a.Precedes b ∧ a.error.line ≤ b.error.line ∨
      a.Inside b ∧ b.error.line ≤ a.error.line := by
  refine h.ordered.imp_of_mem fun {a b} ha hb hab => ?_
  have hplaces : ∀ f ∈ found, InLines f.place := fun f hf => (h.within f hf).1.inLines hts
  refine hab.2.imp (fun hle => ⟨hle, ?_⟩) (fun hin => ⟨hin, ?_⟩)
  · exact hle.line_le (h.sound a ha) (h.sound b hb) (hplaces a ha)
  · exact (hin.precedes (h.sound b hb)).line_le (h.sound b hb) (h.sound a ha) (hplaces b hb)

/-- Relations that agree on ordered pairs agree on a list. -/
theorem pairwise_congr {R S T : α → α → Prop} {l : List α} (h : l.Pairwise R)
    (hST : ∀ a b, R a b → (S a b ↔ T a b)) : l.Pairwise S ↔ l.Pairwise T :=
  ⟨fun hS => (h.and hS).imp fun ⟨hR, hS⟩ => (hST _ _ hR).1 hS,
    fun hT => (h.and hT).imp fun ⟨hR, hT⟩ => (hST _ _ hR).2 hT⟩

/-- **The errors of a text are in source order exactly if no bad target stands in the right side
of an assignment to another one**, which is found later; and their lines do not go back exactly if
any two such targets are on one line. -/
theorem errors_in_source_order_iff (source : String) :
    ∃ found rest, found.map Finding.error = (parse (scan source).tokens).errors ∧
      Found (scan source).tokens found rest ∧
      (found.Pairwise Finding.Precedes ↔ found.Pairwise fun a b => ¬ a.Inside b) ∧
      ((parse (scan source).tokens).errors.Pairwise (fun a b => a.line ≤ b.line) ↔
        found.Pairwise fun a b => a.Inside b → a.error.line = b.error.line) := by
  obtain ⟨found, rest, herrors, hfound⟩ := found_parse (scan source).tokens
  have hlines := hfound.ordered_lines (inLines_scan source)
  refine ⟨found, rest, herrors, hfound, ?_, ?_⟩
  · refine pairwise_congr hlines fun a b hab => ⟨fun hle hin => ?_, fun hout => ?_⟩
    · exact hin.not_precedes hle
    · exact (hab.resolve_right fun hin => hout hin.1).1
  · rw [← herrors, List.pairwise_map]
    refine pairwise_congr hlines fun a b hab => ⟨fun hle hin => ?_, fun hsame => ?_⟩
    · rcases hab with ⟨hbefore, -⟩ | ⟨-, hback⟩
      · exact absurd hbefore hin.not_precedes
      · exact Nat.le_antisymm hle hback
    · rcases hab with ⟨-, hle⟩ | ⟨hin, -⟩
      · exact hle
      · exact Nat.le_of_eq (hsame hin)

/-- In `1 = 2 = 3;` with a line for each token the second equals sign is told before the first. -/
theorem inner_target_is_told_first :
    ¬ ∀ source : String,
      (parse (scan source).tokens).errors.Pairwise (fun a b => a.line ≤ b.line) ∧
        ∃ places : List Nat, places.Pairwise (· ≤ ·) ∧
          places.map ((scan source).tokens[·]?) =
            (parse (scan source).tokens).errors.map (some ·.token) := by
  intro h
  have hlines := (h "1\n=\n2\n=\n3;").1
  revert hlines
  decide +kernel

/-! ## Bare expressions -/

/-- The errors of a bare expression in the order in which they are found: those of the rules, and
that of leftover tokens. -/
def Grammar.expressionErrors (tokens : List Token) : List ParseError :=
  match (rules maxNesting).expression tokens with
  | .failed e noted _ => noted ++ [e]
  | .parsed _ noted rest =>
    noted ++ if (peek rest).kind = .eof then [] else [⟨.leftover, peek rest⟩]

/-- A rule of expressions fails at the next token.  What it has noted before are bad targets, each
at an equals sign that it has read. -/
theorem Grammar.noted_before_failure {n : Nat} {tokens rest : List Token}
    {raised : ParseError} {noted : List ParseError}
    (h : (rules n).expression tokens = .failed raised noted rest) :
    raised.fault ≠ .badTarget ∧ raised.token = peek rest ∧
      ∀ first ∈ noted, first.fault = .badTarget ∧ first.token.kind = .equal ∧
        ∃ before behind, tokens = before ++ first.token :: behind ∧ Leaves behind rest := by
  have hfinds := (finds_rules n).expression tokens
  have hnotes := (notes_expression n).1 tokens trivial
  rw [h] at hfinds hnotes
  cases hnotes with
  | failed _ hbad _ =>
    cases hfinds with
    | @failed fault found rest hfound hfault =>
      refine ⟨hfault, rfl, fun first hfirst => ⟨hbad first hfirst, ?_⟩⟩
      obtain ⟨f, hf, rfl⟩ := List.mem_map.1 hfirst
      obtain ⟨behind, hplace, hsign, hread⟩ := (hfound.sound f hf).at_sign (hbad f.error hfirst)
      obtain ⟨⟨before, htokens, -⟩, hleft⟩ := hfound.within f hf
      exact ⟨hsign, before, behind, by rw [htokens, hplace], hread.trans hleft⟩

/-- **The error that is told of a bare expression is the one found first, unless a rule failed
when a bad target had been noted**; then the error of the rule is told, which stands behind it. -/
theorem parseExpression_reports_first_iff (tokens : List Token) (e : ParseError)
    (h : parseExpression tokens = .error e) :
    ((expressionErrors tokens).head? = some e ↔
      ∀ raised noted rest, (rules maxNesting).expression tokens = .failed raised noted rest →
        noted = []) ∧
    ∀ raised noted rest, (rules maxNesting).expression tokens = .failed raised noted rest →
      e = raised ∧ e.fault ≠ .badTarget ∧ e.token = peek rest ∧
        ∀ first ∈ noted, first.fault = .badTarget ∧ first.token.kind = .equal ∧
          ∃ before behind, tokens = before ++ first.token :: behind ∧ Leaves behind rest := by
  have htold : ∀ raised noted rest,
      (rules maxNesting).expression tokens = .failed raised noted rest → e = raised := by
    intro raised noted rest hrun
    rw [parseExpression, parseExpressionWithin, hrun] at h
    cases h
    rfl
  refine ⟨⟨?_, ?_⟩, ?_⟩
  · intro hfirst raised noted rest hrun
    rw [expressionErrors, hrun] at hfirst
    cases noted with
    | nil => rfl
    | cons first noted =>
      obtain rfl : first = e := by simpa using hfirst
      obtain ⟨hfault, -, hnoted⟩ := noted_before_failure hrun
      rw [← htold raised _ rest hrun] at hfault
      exact absurd (hnoted first List.mem_cons_self).1 hfault
  · intro hnone
    rw [parseExpression, parseExpressionWithin] at h
    rw [expressionErrors]
    cases hrun : (rules maxNesting).expression tokens with
    | failed raised noted rest =>
      rw [hnone raised noted rest hrun, htold raised noted rest hrun]
      rfl
    | parsed value noted rest =>
      rw [hrun] at h
      cases noted with
      | cons first noted =>
        cases h
        rfl
      | nil =>
        simp only [conclude] at h
        split at h
        · cases h
        next hleft =>
          cases h
          simp [hleft]
  · intro raised noted rest hrun
    obtain rfl := htold raised noted rest hrun
    exact ⟨rfl, noted_before_failure hrun⟩

/-- The tokens of `(1 = 2) +`. -/
def Grammar.targetInSum : List Token :=
  let number := fun digit : Char =>
    (⟨.number, 1, String.ofList [digit], some (.number (Number.read [digit]))⟩ : Token)
  let sign := fun kind : Kind => (⟨kind, 1, kind.text, none⟩ : Token)
  [sign .leftParen, number '1', sign .equal, number '2', sign .rightParen, sign .plus, Token.eof 1]

/-- The bad target is noted before the operand is missed. -/
theorem Grammar.expression_targetInSum : (rules maxNesting).expression targetInSum =
    .failed ⟨.noExpression, Token.eof 1⟩ [⟨.badTarget, ⟨.equal, 1, "=", none⟩⟩] [Token.eof 1] :=
  rfl

/-- In `(1 = 2) +` the missing operand is told, and the equals sign stands before it. -/
theorem operand_is_told_behind_target :
    parseExpression targetInSum = .error ⟨.noExpression, Token.eof 1⟩ ∧
      ∃ before behind, targetInSum = before ++ ⟨.equal, 1, "=", none⟩ :: behind ∧
        Leaves behind [Token.eof 1] := by
  have htold : parseExpression targetInSum = .error ⟨.noExpression, Token.eof 1⟩ := rfl
  have h := (parseExpression_reports_first_iff targetInSum _ htold).2 _ _ _ expression_targetInSum
  exact ⟨htold, (h.2.2.2 _ (List.mem_singleton_self _)).2.2⟩

/-- The error that is told of `(1 = 2) +` is not the first. -/
theorem target_in_sum_is_not_told :
    ¬ ∀ (tokens : List Token) (e : ParseError), parseExpression tokens = .error e →
      (expressionErrors tokens).head? = some e := by
  intro h
  have hfirst := h targetInSum ⟨.noExpression, Token.eof 1⟩ rfl
  rw [expressionErrors, expression_targetInSum] at hfirst
  cases hfirst

end Lox
