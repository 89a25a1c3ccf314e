import Lox.Proofs.Grammar.Advance
import Lox.Proofs.Grammar.Derivation

/-!
# Expressions are read exactly as they derive

`Rule.Reads p ts a rest` says that a rule turns the tokens before `rest` into `a` and
notes no error.  For every phrase of the grammar this file proves that the rule of the
phrase reads exactly the token lists that derive the phrase and that the tokens left
do not go on with it (`reads_rule_iff`).

* `Phrase.rule`, `Phrase.Clear` — the rule that reads a phrase, and what may follow it.
* `Derives.readAs` — every derivation is read: induction on the derivation.
* `derives_of_reads` — whatever is read derives: induction on the levels of nesting.
-/

namespace Lox

variable {α β : Type}

namespace Rule

/-! ## Reading without errors -/

/-- The rule reads the tokens before `rest` as `a`, without an error. -/
def Reads (p : Rule α) (ts : List Token) (a : α) (rest : List Token) : Prop :=
  p ts = .parsed a [] rest

theorem andThen_eq_parsed_nil {r : Reply α} {f : α → List Token → Reply β} {b : β}
    {rest : List Token} :
    r.andThen f = .parsed b [] rest ↔
      ∃ a mid, r = .parsed a [] mid ∧ f a mid = .parsed b [] rest := by
  rw [andThen_eq_parsed_iff]
  constructor
  · rintro ⟨a, es₁, mid, es₂, hr, hf, hes⟩
    obtain ⟨rfl, rfl⟩ := List.append_eq_nil_iff.1 hes.symm
    exact ⟨a, mid, hr, hf⟩
  · rintro ⟨a, mid, hr, hf⟩
    exact ⟨a, [], mid, [], hr, hf, rfl⟩

@[simp] theorem reads_bind {p : Rule α} {f : α → Rule β} {ts rest : List Token} {b : β} :
    (p >>= f).Reads ts b rest ↔ ∃ a mid, p.Reads ts a mid ∧ (f a).Reads mid b rest :=
  andThen_eq_parsed_nil

@[simp] theorem reads_pure {a b : α} {ts rest : List Token} :
    (pure a : Rule α).Reads ts b rest ↔ b = a ∧ rest = ts := by
  simp [Reads, eq_comm]

@[simp] theorem reads_map {p : Rule α} {f : α → β} {ts rest : List Token} {b : β} :
    (f <$> p).Reads ts b rest ↔ ∃ a, p.Reads ts a rest ∧ b = f a := by
  have h : f <$> p = p >>= fun a => pure (f a) := rfl
  rw [h, reads_bind]
  constructor
  · rintro ⟨a, mid, ha, hb⟩
    obtain ⟨rfl, rfl⟩ := reads_pure.1 hb
    exact ⟨a, ha, rfl⟩
  · rintro ⟨a, ha, rfl⟩
    exact ⟨a, rest, ha, reads_pure.2 ⟨rfl, rfl⟩⟩

@[simp] theorem not_reads_fail {fault : Fault} {a : α} {ts rest : List Token} :
    ¬ (fail fault : Rule α).Reads ts a rest := by
  simp [Reads, fail]

@[simp] theorem not_reads_note {e : ParseError} {u : Unit} {ts rest : List Token} :
    ¬ (note e).Reads ts u rest := by
  simp [Reads, note]

@[simp] theorem reads_nextKind {k : Kind} {ts rest : List Token} :
    nextKind.Reads ts k rest ↔ k = (peek ts).kind ∧ rest = ts := by
  simp [Reads, nextKind, eq_comm]

@[simp] theorem reads_accept_some {kind : Kind} {t : Token} {ts rest : List Token} :
    (accept kind).Reads ts (some t) rest ↔ ts = t :: rest ∧ t.kind = kind := by
  cases ts with
  | nil => simp [Reads, accept, acceptIf]
  | cons u us =>
    by_cases h : u.kind = kind
    · simp only [Reads, accept, acceptIf, if_pos h, Reply.parsed.injEq, Option.some.injEq,
        List.cons.injEq]
      constructor
      · rintro ⟨rfl, -, rfl⟩
        exact ⟨⟨rfl, rfl⟩, h⟩
      · rintro ⟨⟨rfl, rfl⟩, -⟩
        exact ⟨rfl, trivial, rfl⟩
    · simp only [Reads, accept, acceptIf, if_neg h, Reply.parsed.injEq, reduceCtorEq, false_and,
        List.cons.injEq, false_iff]
      rintro ⟨⟨rfl, -⟩, ht⟩
      exact h ht

@[simp] theorem reads_accept_none {kind : Kind} {ts rest : List Token} :
    (accept kind).Reads ts none rest ↔ rest = ts ∧ ∀ t ∈ ts.head?, t.kind ≠ kind := by
  cases ts with
  | nil => simp [Reads, accept, acceptIf, eq_comm]
  | cons u us =>
    by_cases h : u.kind = kind
    · simp [Reads, accept, acceptIf, h]
    · simpa [Reads, accept, acceptIf, h] using eq_comm

@[simp] theorem reads_expect {kind : Kind} {fault : Fault} {t : Token} {ts rest : List Token} :
    (expect kind fault).Reads ts t rest ↔ ts = t :: rest ∧ t.kind = kind := by
  rw [expect, reads_bind]
  constructor
  · rintro ⟨o, mid, ho, ht⟩
    cases o with
    | none => exact absurd ht not_reads_fail
    | some u =>
      obtain ⟨rfl, rfl⟩ := reads_pure.1 ht
      exact reads_accept_some.1 ho
  · intro h
    exact ⟨some t, rest, reads_accept_some.2 h, reads_pure.2 ⟨rfl, rfl⟩⟩

@[simp] theorem reads_expectAfter {kind : Kind} {place : Place} {t : Token}
    {ts rest : List Token} :
    (expectAfter kind place).Reads ts t rest ↔ ts = t :: rest ∧ t.kind = kind :=
  reads_expect

end Rule

namespace Grammar

open Rule

namespace Phrase

/-! ## The rule of a phrase -/

/-- The rule that reads a phrase. -/
def rule (inner : Rules Rule) : Phrase → Rule Expr
  | expression => inner.expression
  | assignment => Grammar.assignment inner
  | disjunction => upTo inner 6
  | conjunction => upTo inner 5
  | equality => upTo inner 4
  | comparison => upTo inner 3
  | term => upTo inner 2
  | factor => upTo inner 1
  | unary => Grammar.unary inner
  | operand => inner.operand
  | primary => Grammar.primary inner

/-- The tier of the operators that build a phrase. -/
def tier? : Phrase → Option Nat
  | disjunction => some 5
  | conjunction => some 4
  | equality => some 3
  | comparison => some 2
  | term => some 1
  | factor => some 0
  | _ => none

theorem rule_eq_chain {p q : Phrase} {k : Nat} (hk : p.tier? = some k) (hq : p.tighter? = some q)
    (inner : Rules Rule) : p.rule inner = chain k (q.rule inner) := by
  cases p <;> cases hk <;> cases hq <;> rfl

/-- The operators of a tier are those that build its phrase. -/
theorem tier?_eq_iff {p : Phrase} {k : Nat} (hk : p.tier? = some k) (op : Kind) :
    Grammar.tier? op = some k ↔ op ∈ p.logicalOperators ∨ op ∈ p.binaryOperators := by
  cases p <;> cases hk <;> cases op <;> decide

theorem join_of_logical {p : Phrase} {op : Token} (h : op.kind ∈ p.logicalOperators)
    (l r : Expr) : join l op r = .logical l op r := by
  have hop : op.kind = .orWord ∨ op.kind = .andWord := by
    cases p <;> simp_all [logicalOperators]
  rcases hop with hop | hop <;> simp [join, hop]

theorem join_of_binary {p : Phrase} {op : Token} (h : op.kind ∈ p.binaryOperators)
    (l r : Expr) : join l op r = .binary l op r := by
  rw [join]
  split
  next hop => cases p <;> simp_all [binaryOperators]
  next hop => cases p <;> simp_all [binaryOperators]
  next => rfl

/-! ## What may follow a phrase -/

/-- The kinds of token with which a phrase goes on: the operators of its tier and of the
tighter ones, and for an assignment also the equals sign. -/
def goesOnWith (p : Phrase) (kind : Kind) : Bool :=
  match p with
  | expression | assignment => kind = .equal || (Grammar.tier? kind).isSome
  | _ =>
    match p.tier?, Grammar.tier? kind with
    | some k, some j => j ≤ k
    | _, _ => false

/-- The tokens do not go on with the phrase. -/
def Clear (p : Phrase) (after : List Token) : Prop :=
  ∀ t ∈ after.head?, p.goesOnWith t.kind = false

theorem clear_nil (p : Phrase) : p.Clear [] := by
  intro t ht
  cases ht

theorem clear_cons_iff {p : Phrase} {t : Token} {ts : List Token} :
    p.Clear (t :: ts) ↔ p.goesOnWith t.kind = false := by
  simp [Clear]

/-- A phrase of a tier goes on with the operators of its tier, and where the next tighter
phrase does. -/
theorem goesOnWith_tier {p q : Phrase} {k : Nat} (hk : p.tier? = some k)
    (hq : p.tighter? = some q) (kind : Kind) :
    p.goesOnWith kind = (q.goesOnWith kind || decide (Grammar.tier? kind = some k)) := by
  cases p <;> cases hk <;> cases hq <;> cases kind <;> decide

theorem goesOnWith_assignment (kind : Kind) :
    assignment.goesOnWith kind = (disjunction.goesOnWith kind || decide (kind = .equal)) := by
  cases kind <;> decide

theorem clear_tier_iff {p q : Phrase} {k : Nat} (hk : p.tier? = some k)
    (hq : p.tighter? = some q) {after : List Token} :
    p.Clear after ↔ q.Clear after ∧ ∀ t ∈ after.head?, Grammar.tier? t.kind ≠ some k := by
  cases after with
  | nil => simp [Clear]
  | cons t ts => simp [clear_cons_iff, goesOnWith_tier hk hq]

theorem clear_assignment_iff {after : List Token} :
    assignment.Clear after ↔
      disjunction.Clear after ∧ ∀ t ∈ after.head?, t.kind ≠ .equal := by
  cases after with
  | nil => simp [Clear]
  | cons t ts => simp [clear_cons_iff, goesOnWith_assignment]

/-- An operator of a tier does not go on with the next tighter phrase. -/
theorem clear_of_tier {p q : Phrase} {k : Nat} (hk : p.tier? = some k)
    (hq : p.tighter? = some q) {op : Token} (hop : Grammar.tier? op.kind = some k)
    (ts : List Token) : q.Clear (op :: ts) := by
  rw [clear_cons_iff]
  cases p <;> cases hk <;> cases hq <;> simp [goesOnWith, tier?, hop]

theorem clear_closing {p : Phrase} {t : Token} (ht : t.kind = .semicolon ∨ t.kind = .rightParen)
    (ts : List Token) : p.Clear (t :: ts) := by
  rw [clear_cons_iff]
  rcases ht with ht | ht <;> rw [ht] <;> cases p <;> rfl

/-! ## How a phrase begins -/

/-- The kinds of token with which a phrase begins. -/
def openers : Phrase → List Kind
  | primary => [.identifier, .leftParen, .number, .string, .trueWord, .falseWord, .nilWord]
  | _ => [.bang, .minus, .identifier, .leftParen, .number, .string, .trueWord, .falseWord, .nilWord]

theorem openers_subset (p q : Phrase) (hp : p ≠ primary) : q.openers ⊆ p.openers := by
  cases p <;> cases q <;> first | contradiction | decide

end Phrase

theorem Derives.head {n : Nat} {p : Phrase} {w : List Token} {e : Expr} (h : Derives n p w e) :
    ∃ t r, w = t :: r ∧ t.kind ∈ p.openers := by
  have weaken : ∀ {p q : Phrase} {k : Kind}, p.tighter? = some q → k ∈ q.openers →
      k ∈ p.openers := by
    intro p q k hq hk
    refine p.openers_subset q ?_ hk
    rintro rfl
    cases hq
  induction h with
  | expression whole ih => exact ih
  | operand whole ih => exact ih
  | tighter hq whole ih =>
    obtain ⟨t, r, rfl, ht⟩ := ih
    exact ⟨t, r, rfl, weaken hq ht⟩
  | assign hx hs value ih => exact ⟨_, _, rfl, by rw [hx]; decide⟩
  | logical hq left hop right ihl ihr =>
    obtain ⟨t, r, rfl, ht⟩ := ihl
    exact ⟨t, _, rfl, ht⟩
  | binary hq left hop right ihl ihr =>
    obtain ⟨t, r, rfl, ht⟩ := ihl
    exact ⟨t, _, rfl, ht⟩
  | unary hop right ih => exact ⟨_, _, rfl, by rcases hop with hop | hop <;> rw [hop] <;> decide⟩
  | group ho inner hc ih => exact ⟨_, _, rfl, by rw [ho]; decide⟩
  | var hx => exact ⟨_, _, rfl, by rw [hx]; decide⟩
  | literal ht hv => exact ⟨_, _, rfl, by rcases ht with ht | ht <;> rw [ht] <;> decide⟩
  | truth ht => exact ⟨_, _, rfl, by rw [ht]; decide⟩
  | falsehood ht => exact ⟨_, _, rfl, by rw [ht]; decide⟩
  | nil ht => exact ⟨_, _, rfl, by rw [ht]; decide⟩

/-! ## Every derivation is read -/

theorem advances_rule (n : Nat) (p : Phrase) : (p.rule (rules n)).Advances := by
  have h := advances_rules n
  cases p with
  | expression => exact h.expression
  | assignment => exact advances_assignment h
  | unary => exact advances_unary h
  | operand => exact h.operand
  | primary => exact advances_primary h
  | _ => exact advances_upTo h _

/-- What the rule of a phrase does with a derivation of it.  A chain may go on with the
tokens behind, so for a phrase with a tier it is said how. -/
structure ReadAs (n : Nat) (p : Phrase) (w : List Token) (e : Expr) : Prop where
  reads : ∀ after, p.Clear after → (p.rule (rules n)).Reads (w ++ after) e after
  goesOn : ∀ k q, p.tier? = some k → p.tighter? = some q → ∀ after, q.Clear after →
    p.rule (rules n) (w ++ after) = chainRest k (q.rule (rules n)) e after

/-- For a phrase without a tier there is only one thing to show. -/
theorem ReadAs.of_reads {n : Nat} {p : Phrase} {w : List Token} {e : Expr} (hp : p.tier? = none)
    (h : ∀ after, p.Clear after → (p.rule (rules n)).Reads (w ++ after) e after) :
    ReadAs n p w e := by
  refine ⟨h, ?_⟩
  intro k q hk
  rw [hp] at hk
  cases hk

/-- A chain ends where no operator of its tier follows. -/
theorem ReadAs.of_goesOn {n : Nat} {p q : Phrase} {w : List Token} {e : Expr} {k : Nat}
    (hk : p.tier? = some k) (hq : p.tighter? = some q)
    (h : ∀ after, q.Clear after →
      p.rule (rules n) (w ++ after) = chainRest k (q.rule (rules n)) e after) :
    ReadAs n p w e := by
  constructor
  · intro after hc
    obtain ⟨hq', hne⟩ := (Phrase.clear_tier_iff hk hq).1 hc
    exact (h after hq').trans (chainRest_end hne)
  · intro k' q' hk' hq'
    obtain rfl : k = k' := Option.some.inj (hk.symm.trans hk')
    obtain rfl : q = q' := Option.some.inj (hq.symm.trans hq')
    exact h

theorem readAs_tighter {n : Nat} {p q : Phrase} {w : List Token} {e : Expr}
    (hq : p.tighter? = some q) (whole : Derives n q w e) (ih : ReadAs n q w e) :
    ReadAs n p w e := by
  cases hk : p.tier? with
  | some k =>
    refine ReadAs.of_goesOn hk hq ?_
    intro after hc
    rw [Phrase.rule_eq_chain hk hq, chain_apply, ih.reads after hc]
    exact Reply.after_nil _
  | none =>
    refine ReadAs.of_reads hk ?_
    intro after hc
    cases p with
    | assignment =>
      cases hq
      obtain ⟨hd, hne⟩ := Phrase.clear_assignment_iff.1 hc
      have h : (upTo (rules n) tiers).Reads (w ++ after) e after := ih.reads after hd
      rw [Phrase.rule, assignment, reads_bind]
      refine ⟨e, after, h, reads_bind.2 ⟨none, after, reads_accept_none.2 ⟨rfl, hne⟩, ?_⟩⟩
      exact reads_pure.2 ⟨rfl, rfl⟩
    | unary =>
      cases hq
      obtain ⟨t, r, rfl, ht⟩ := whole.head
      have hne : ¬ (t.kind = .bang ∨ t.kind = .minus) := by
        rintro (h | h) <;> rw [h] at ht <;> revert ht <;> decide
      have h : (primary (rules n)).Reads (t :: r ++ after) e after :=
        ih.reads after (by intro u _; rfl)
      rw [Phrase.rule, Rule.Reads, List.cons_append, unary_cons, if_neg hne]
      exact h
    | expression => cases hq
    | operand => cases hq
    | primary => cases hq
    | disjunction => cases hk
    | conjunction => cases hk
    | equality => cases hk
    | comparison => cases hk
    | term => cases hk
    | factor => cases hk

/-- An operator and a right operand lengthen a chain. -/
theorem readAs_join {n : Nat} {p q : Phrase} {u v : List Token} {l r : Expr} {op : Token}
    (hq : p.tighter? = some q) (hop : op.kind ∈ p.logicalOperators ∨ op.kind ∈ p.binaryOperators)
    (ihl : ReadAs n p u l) (ihr : ReadAs n q v r) : ReadAs n p (u ++ op :: v) (join l op r) := by
  obtain ⟨k, hk⟩ : ∃ k, p.tier? = some k := by
    cases p <;> simp_all [Phrase.logicalOperators, Phrase.binaryOperators, Phrase.tier?]
  have htier := (Phrase.tier?_eq_iff hk op.kind).2 hop
  refine ReadAs.of_goesOn hk hq ?_
  intro after hc
  have hclear : q.Clear (op :: (v ++ after)) := Phrase.clear_of_tier hk hq htier _
  have hleft := ihl.goesOn k q hk hq (op :: (v ++ after)) hclear
  rw [List.append_assoc, List.cons_append, hleft, chainRest_cons (advances_rule n q) htier,
    ihr.reads after hc]
  exact Reply.after_nil _

theorem readAs_var {n : Nat} {x : Token} (hx : x.kind = .identifier) :
    ReadAs n .primary [x] (.var x) := by
  refine ReadAs.of_reads rfl fun after _ => ?_
  simp [Phrase.rule, Rule.Reads, primary_cons, hx]

/-- A name is read as a phrase without assignment. -/
theorem readAs_name (n : Nat) {x : Token} (hx : x.kind = .identifier) :
    ReadAs n .disjunction [x] (.var x) := by
  have up : ∀ {p q : Phrase}, p.tighter? = some q →
      Derives n q [x] (.var x) ∧ ReadAs n q [x] (.var x) →
      Derives n p [x] (.var x) ∧ ReadAs n p [x] (.var x) :=
    fun hq h => ⟨.tighter hq h.1, readAs_tighter hq h.1 h.2⟩
  have h : Derives n .factor [x] (.var x) ∧ ReadAs n .factor [x] (.var x) :=
    up rfl (up (p := .unary) rfl ⟨.var hx, readAs_var hx⟩)
  exact (up rfl (up (p := .conjunction) rfl (up (p := .equality) rfl (up (p := .comparison) rfl
    (up (p := .term) rfl h))))).2

/-- Every derivation is read as its tree. -/
theorem Derives.readAs {n : Nat} {p : Phrase} {w : List Token} {e : Expr}
    (h : Derives n p w e) : ReadAs n p w e := by
  induction h with
  | expression whole ih => exact ReadAs.of_reads rfl ih.reads
  | operand whole ih => exact ReadAs.of_reads rfl ih.reads
  | tighter hq whole ih => exact readAs_tighter hq whole ih
  | logical hq left hop right ihl ihr =>
    rw [← Phrase.join_of_logical hop]
    exact readAs_join hq (.inl hop) ihl ihr
  | binary hq left hop right ihl ihr =>
    rw [← Phrase.join_of_binary hop]
    exact readAs_join hq (.inr hop) ihl ihr
  | @assign n w e x sign hx hs value ih =>
    refine ReadAs.of_reads rfl fun after hc => ?_
    -- the target is read first, as an expression of its own
    have ht : (upTo (rules n) tiers).Reads (x :: sign :: (w ++ after)) (.var x)
        (sign :: (w ++ after)) :=
      (readAs_name n hx).reads (sign :: (w ++ after))
        (by rw [Phrase.clear_cons_iff, hs]; rfl)
    have hv : (rules n).expression.Reads (w ++ after) e after := ih.reads after hc
    rw [Phrase.rule, assignment, reads_bind]
    refine ⟨.var x, _, ht, reads_bind.2 ⟨some sign, w ++ after, ?_, ?_⟩⟩
    · exact reads_accept_some.2 ⟨rfl, hs⟩
    · exact reads_bind.2 ⟨e, after, hv, reads_pure.2 ⟨rfl, rfl⟩⟩
  | @unary n w e op hop right ih =>
    refine ReadAs.of_reads rfl fun after _ => ?_
    have h : (rules n).operand.Reads (w ++ after) e after := ih.reads after (by intro t _; rfl)
    rw [Phrase.rule, Rule.Reads, List.cons_append, unary_cons, if_pos hop, h]
    rfl
  | @group n w e o c ho inner hc ih =>
    refine ReadAs.of_reads rfl fun after _ => ?_
    have h : (rules n).expression.Reads (w ++ c :: after) e (c :: after) :=
      ih.reads _ (Phrase.clear_closing (.inr hc) after)
    have hg : (grouped (rules n)).Reads (w ++ c :: after) (.group e) after := by
      rw [grouped, reads_bind]
      exact ⟨e, _, h, reads_bind.2 ⟨c, after, reads_expectAfter.2 ⟨rfl, hc⟩,
        reads_pure.2 ⟨rfl, rfl⟩⟩⟩
    simpa [Phrase.rule, Rule.Reads, primary_cons, ho] using hg
  | var hx => exact readAs_var hx
  | literal ht hv =>
    refine ReadAs.of_reads rfl fun after _ => ?_
    rcases ht with ht | ht <;> simp [Phrase.rule, Rule.Reads, primary_cons, ht, value?, hv]
  | truth ht =>
    refine ReadAs.of_reads rfl fun after _ => ?_
    simp [Phrase.rule, Rule.Reads, primary_cons, ht, value?]
  | falsehood ht =>
    refine ReadAs.of_reads rfl fun after _ => ?_
    simp [Phrase.rule, Rule.Reads, primary_cons, ht, value?]
  | nil ht =>
    refine ReadAs.of_reads rfl fun after _ => ?_
    simp [Phrase.rule, Rule.Reads, primary_cons, ht, value?]

/-! ## Whatever is read derives -/

/-- What the rule of a phrase reads derives the phrase, and the tokens left do not go on
with it. -/
def Sound (n : Nat) (p : Phrase) : Prop :=
  ∀ ts e rest, (p.rule (rules n)).Reads ts e rest →
    ∃ w, ts = w ++ rest ∧ Derives n p w e ∧ p.Clear rest

theorem sound_primary {n : Nat} (h : Sound n .expression) : Sound n .primary := by
  intro ts e rest hr
  have hclear : Phrase.primary.Clear rest := by intro t _; rfl
  cases ts with
  | nil => exact absurd hr not_reads_fail
  | cons t ts =>
    rw [Phrase.rule, Rule.Reads, primary_cons] at hr
    split at hr
    next hk =>
      cases hr
      exact ⟨[t], rfl, .var hk, hclear⟩
    next hk =>
      have hg : (grouped (rules n)).Reads ts e rest := hr
      rw [grouped] at hg
      simp only [lift_eq, reads_bind, reads_expectAfter, reads_pure] at hg
      obtain ⟨e', mid, he, c, _, ⟨rfl, hc⟩, rfl, rfl⟩ := hg
      obtain ⟨w, rfl, hw, -⟩ := h _ _ _ he
      exact ⟨t :: w ++ [c], by simp, .group hk hw hc, hclear⟩
    next =>
      split at hr
      next v hv =>
        cases hr
        refine ⟨[t], rfl, ?_, hclear⟩
        rw [value?] at hv
        split at hv
        next hk => cases hv; exact .falsehood hk
        next hk => cases hv; exact .truth hk
        next hk => cases hv; exact .nil hk
        next hk =>
          obtain ⟨l, hl, rfl⟩ := Option.map_eq_some_iff.1 hv
          exact .literal (.inl hk) hl
        next hk =>
          obtain ⟨l, hl, rfl⟩ := Option.map_eq_some_iff.1 hv
          exact .literal (.inr hk) hl
        next => cases hv
      next => exact absurd hr not_reads_fail

theorem sound_unary {n : Nat} (h : Sound n .operand) (hp : Sound n .primary) :
    Sound n .unary := by
  intro ts e rest hr
  have hclear : Phrase.unary.Clear rest := by intro t _; rfl
  have hprim : (primary (rules n)).Reads ts e rest →
      ∃ w, ts = w ++ rest ∧ Derives n .unary w e ∧ Phrase.unary.Clear rest := by
    intro hr
    obtain ⟨w, hw, hd, -⟩ := hp ts e rest hr
    exact ⟨w, hw, .tighter rfl hd, hclear⟩
  cases ts with
  | nil => exact hprim hr
  | cons t ts =>
    rw [Phrase.rule, Rule.Reads, unary_cons] at hr
    split at hr
    next hk =>
      obtain ⟨e', mid, he, hfin⟩ := andThen_eq_parsed_nil.1 hr
      cases hfin
      obtain ⟨w, rfl, hw, -⟩ := h _ _ _ he
      exact ⟨t :: w, rfl, .unary hk hw, hclear⟩
    next => exact hprim hr

/-- A chain that has been read up to `l` is lengthened until it ends. -/
theorem sound_chainRest {n : Nat} {p q : Phrase} {k : Nat} (hk : p.tier? = some k)
    (hq : p.tighter? = some q) (h : Sound n q) :
    ∀ (m : Nat) (u ts : List Token) (l e : Expr) (rest : List Token), ts.length ≤ m →
      Derives n p u l → q.Clear ts →
      chainRest k (q.rule (rules n)) l ts = .parsed e [] rest →
      ∃ v, ts = v ++ rest ∧ Derives n p (u ++ v) e ∧ p.Clear rest := by
  intro m
  induction m with
  | zero =>
    intro u ts l e rest hlen hl hclear hr
    obtain rfl : ts = [] := List.eq_nil_of_length_eq_zero (Nat.le_zero.1 hlen)
    cases hr
    exact ⟨[], rfl, by rwa [List.append_nil], Phrase.clear_nil p⟩
  | succ m ih =>
    intro u ts l e rest hlen hl hclear hr
    by_cases hend : ∀ op ∈ ts.head?, tier? op.kind ≠ some k
    · rw [chainRest_end hend] at hr
      cases hr
      refine ⟨[], rfl, by rwa [List.append_nil], ?_⟩
      exact (Phrase.clear_tier_iff hk hq).2 ⟨hclear, hend⟩
    · cases ts with
      | nil => exact absurd (by simp) hend
      | cons op ts =>
        have htier : tier? op.kind = some k := by simpa using hend
        rw [chainRest_cons (advances_rule n q) htier] at hr
        obtain ⟨r, mid, hright, hfin⟩ := andThen_eq_parsed_nil.1 hr
        obtain ⟨v, rfl, hv, hmid⟩ := h _ _ _ hright
        have hlen' : mid.length ≤ m := by
          simp only [List.length_cons, List.length_append] at hlen
          omega
        -- the chain is longer by the operator and its right operand
        have hjoin : Derives n p (u ++ op :: v) (join l op r) := by
          rcases (Phrase.tier?_eq_iff hk op.kind).1 htier with hop | hop
          · rw [Phrase.join_of_logical hop]
            exact .logical hq hl hop hv
          · rw [Phrase.join_of_binary hop]
            exact .binary hq hl hop hv
        obtain ⟨v', rfl, hd, hc⟩ := ih _ _ _ _ _ hlen' hjoin hmid hfin
        exact ⟨op :: v ++ v', by simp, by simpa using hd, hc⟩

theorem sound_chain {n : Nat} {p q : Phrase} {k : Nat} (hk : p.tier? = some k)
    (hq : p.tighter? = some q) (h : Sound n q) : Sound n p := by
  intro ts e rest hr
  rw [Rule.Reads, Phrase.rule_eq_chain hk hq, chain_apply] at hr
  obtain ⟨l, mid, hl, hrest⟩ := andThen_eq_parsed_nil.1 hr
  obtain ⟨u, rfl, hu, hclear⟩ := h _ _ _ hl
  obtain ⟨v, rfl, hd, hc⟩ :=
    sound_chainRest hk hq h _ u mid l e rest (Nat.le_refl _) (.tighter hq hu) hclear hrest
  exact ⟨u ++ v, by simp, hd, hc⟩

/-- Only a name derives the tree of a variable. -/
theorem Derives.eq_of_var {n : Nat} {p : Phrase} {w : List Token} {x : Token}
    (hp : p ≠ .expression ∧ p ≠ .operand) (h : Derives n p w (.var x)) :
    w = [x] ∧ x.kind = .identifier := by
  generalize he : Expr.var x = e at h
  induction h with
  | expression whole ih => exact absurd rfl hp.1
  | operand whole ih => exact absurd rfl hp.2
  | @tighter n p q w e hq whole ih =>
    refine ih ?_ he
    cases p <;> cases hq <;> decide
  | var hx => cases he; exact ⟨rfl, hx⟩
  | _ => cases he

theorem sound_assignment {n : Nat} (hd : Sound n .disjunction) (hx : Sound n .expression) :
    Sound n .assignment := by
  intro ts e rest hr
  rw [Phrase.rule, assignment] at hr
  simp only [lift_eq, reads_bind] at hr
  obtain ⟨target, mid, ht, o, mid', ho, hfin⟩ := hr
  obtain ⟨w, rfl, hw, hclear⟩ := hd _ _ _ ht
  cases o with
  | none =>
    obtain ⟨rfl, hne⟩ := reads_accept_none.1 ho
    obtain ⟨rfl, rfl⟩ := reads_pure.1 hfin
    exact ⟨w, rfl, .tighter rfl hw, Phrase.clear_assignment_iff.2 ⟨hclear, hne⟩⟩
  | some sign =>
    obtain ⟨rfl, hs⟩ := reads_accept_some.1 ho
    obtain ⟨value, last, hv, hend⟩ := reads_bind.1 hfin
    obtain ⟨v, rfl, hd, hc⟩ := hx _ _ _ hv
    cases target with
    | var x =>
      obtain ⟨rfl, rfl⟩ := reads_pure.1 hend
      obtain ⟨rfl, hx⟩ := hw.eq_of_var (by decide)
      exact ⟨x :: sign :: v, by simp, .assign hx hs hd, hc⟩
    | _ =>
      obtain ⟨u, mid, hn, -⟩ := reads_bind.1 hend
      exact absurd hn not_reads_note

/-- All phrases of a level, from those that open the next one. -/
theorem sound_of_inner {n : Nat} (he : Sound n .expression) (ho : Sound n .operand)
    (p : Phrase) : Sound n p := by
  have hprimary := sound_primary he
  have hunary := sound_unary ho hprimary
  have hfactor : Sound n .factor := sound_chain rfl rfl hunary
  have hterm : Sound n .term := sound_chain rfl rfl hfactor
  have hcomparison : Sound n .comparison := sound_chain rfl rfl hterm
  have hequality : Sound n .equality := sound_chain rfl rfl hcomparison
  have hconjunction : Sound n .conjunction := sound_chain rfl rfl hequality
  have hdisjunction : Sound n .disjunction := sound_chain rfl rfl hconjunction
  have hassignment := sound_assignment hdisjunction he
  cases p <;> assumption

/-- Whatever the rule of a phrase reads derives the phrase. -/
theorem derives_of_reads (n : Nat) (p : Phrase) : Sound n p := by
  induction n generalizing p with
  | zero =>
    refine sound_of_inner ?_ ?_ p <;> intro ts e rest hr <;> exact absurd hr not_reads_fail
  | succ n ih =>
    refine sound_of_inner ?_ ?_ p
    · intro ts e rest hr
      obtain ⟨w, hw, hd, hc⟩ := ih .assignment ts e rest hr
      exact ⟨w, hw, .expression hd, hc⟩
    · intro ts e rest hr
      obtain ⟨w, hw, hd, hc⟩ := ih .unary ts e rest hr
      exact ⟨w, hw, .operand hd, hc⟩

/-- **The rule of a phrase reads exactly what derives the phrase**, where the tokens left
do not go on with it. -/
theorem reads_rule_iff {n : Nat} {p : Phrase} {ts rest : List Token} {e : Expr} :
    (p.rule (rules n)).Reads ts e rest ↔ ∃ w, ts = w ++ rest ∧ Derives n p w e ∧ p.Clear rest := by
  constructor
  · exact derives_of_reads n p ts e rest
  · rintro ⟨w, rfl, hd, hc⟩
    exact hd.readAs.reads rest hc

end Grammar
end Lox
