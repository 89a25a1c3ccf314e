import Lox.Proofs.Execution.Discipline

/-!
# Lookup is lexical

At run time a name is looked up along the chain of open scopes.  The text alone already
tells which scope is found: the innermost block around the name that declares it in an
earlier statement, or else the top level.  This file says what the text tells, and proves
that lookups agree with it at every moment of every run.

* `Stmt.occurrences` — the names that a text uses, each with the names declared before it
  in every scope around it; `Occurrence.place?` — where such a name is declared.
* `Expr.Visits`, `Stmt.Evaluates` — a run comes to evaluate an occurrence.
* `Mirrors` — the open scopes bind exactly the names declared so far in the text.
* `lookup_is_lexical` — where all occurrences are declared, every one that is evaluated is
  found in the scope of its declaration, and no name turns out to be undefined.
-/

namespace Lox

open Run State

/-! ## Occurrences in the text -/

/-- The names that an expression uses, as values or as targets. -/
def Expr.occurrences : Expr → List Token
  | .literal _ => []
  | .group e | .unary _ e => e.occurrences
  | .binary l _ r | .logical l _ r => l.occurrences ++ r.occurrences
  | .var x => [x]
  | .assign x e => e.occurrences ++ [x]

/-- A use of a name in a text. -/
structure Occurrence where
  name : Token
  /-- For each scope around the use, the innermost one first, the names that are declared
  directly in it before the statement that is or holds the use. -/
  scopes : List (List String)

namespace Occurrence

/-- The occurrence with a further scope around it. -/
def within (names : List String) (o : Occurrence) : Occurrence :=
  { o with scopes := o.scopes ++ [names] }

/-- The place of the innermost scope with a name: the number of scopes around it. -/
def placeIn? (x : String) : List (List String) → Option Nat
  | [] => none
  | names :: outer => if x ∈ names then some outer.length else placeIn? x outer

/-- The number of blocks around the declaration of an occurrence, if it has one. -/
def place? (o : Occurrence) : Option Nat := placeIn? o.name.lexeme o.scopes

end Occurrence

namespace Stmt

mutual

/-- The occurrences in a statement, with the scopes that the statement itself opens. -/
def occurrences : Stmt → List Occurrence
  | .expression e | .print e => e.occurrences.map (⟨·, []⟩)
  | .declare _ none => []
  | .declare _ (some e) => e.occurrences.map (⟨·, []⟩)
  | .block body => occurrencesIn [] body
  | .branch c yes none => c.occurrences.map (⟨·, []⟩) ++ yes.occurrences
  | .branch c yes (some no) =>
    c.occurrences.map (⟨·, []⟩) ++ yes.occurrences ++ no.occurrences
  | .loop c body => c.occurrences.map (⟨·, []⟩) ++ body.occurrences

/-- The occurrences in statements of one scope, in which the names `known` are declared
before them. -/
def occurrencesIn (known : List String) : List Stmt → List Occurrence
  | [] => []
  | s :: rest =>
    s.occurrences.map (·.within known) ++ occurrencesIn (known ++ s.declares) rest

end

end Stmt

/-! ## Occurrences in a run -/

/-- `Visits e env x mid`: while `e` is evaluated from `env`, the name `x` in it is looked up
in the environment `mid`. -/
inductive Expr.Visits : Expr → Environment → Token → Environment → Prop where
  | group {e env x mid} (inner : Visits e env x mid) : Visits (.group e) env x mid
  | unary {op e env x mid} (inner : Visits e env x mid) : Visits (.unary op e) env x mid
  | left {l op r env x mid} (inner : Visits l env x mid) : Visits (.binary l op r) env x mid
  | right {l op r v env env' x mid} (hl : l.eval env = .ok v env') (inner : Visits r env' x mid) :
      Visits (.binary l op r) env x mid
  | first {l op r env x mid} (inner : Visits l env x mid) : Visits (.logical l op r) env x mid
  | second {l op r v env env' x mid} (hl : l.eval env = .ok v env')
      (hv : Value.decides op.kind v = false) (inner : Visits r env' x mid) :
      Visits (.logical l op r) env x mid
  | var {x env} : Visits (.var x) env x env
  | value {y e env x mid} (inner : Visits e env x mid) : Visits (.assign y e) env x mid
  /-- The target comes last. -/
  | target {x e v env env'} (he : e.eval env = .ok v env') : Visits (.assign x e) env x env'

/-- A run of statements in a scope that binds the names `known` at first comes to evaluate an
occurrence in the environment `env`. -/
def Stmt.Evaluates (fuel : Nat) (known : List String) (program : List Stmt) (st : State)
    (o : Occurrence) (env : Environment) : Prop :=
  ∃ t e mid, Stmt.ReachesIn fuel known program st o.scopes t mid ∧ t.expression? = some e ∧
    e.Visits mid.env o.name env

variable {fuel : Nat} {known : List String} {scopes outer : List (List String)}
  {names : List String} {s t : Stmt} {body : List Stmt} {st st' mid : State} {e : Expr}
  {env env' : Environment} {x : Token}

theorem Expr.Visits.mem_occurrences (h : e.Visits env x env') : x ∈ e.occurrences := by
  induction h with
  | group _ ih | unary _ ih => exact ih
  | left _ ih | first _ ih | value _ ih => exact List.mem_append_left _ ih
  | right _ _ ih | second _ _ _ ih => exact List.mem_append_right _ ih
  | var => exact List.mem_singleton_self _
  | target _ => exact List.mem_append_right _ (List.mem_singleton_self _)

theorem Expr.Visits.sameNames (h : e.Visits env x env') : env.SameNames env' := by
  have heval : ∀ {e : Expr} {v env env'}, e.eval env = .ok v env' → env.SameNames env' := by
    intro e v env env' he
    have hmove := moves_eval e env
    rwa [he] at hmove
  induction h with
  | group _ ih | unary _ ih | left _ ih | first _ ih | value _ ih => exact ih
  | right hl _ ih | second hl _ _ ih => exact (heval hl).trans ih
  | var => exact .refl _
  | target he => exact heval he

/-- What stands before a statement in its scope is known there. -/
theorem Stmt.within_mem_occurrencesIn {o : Occurrence} (ho : o ∈ s.occurrences)
    (known : List String) (before after : List Stmt) :
    o.within (known ++ before.flatMap declares) ∈
      occurrencesIn known (before ++ s :: after) := by
  induction before generalizing known with
  | nil =>
    rw [List.nil_append, occurrencesIn]
    refine List.mem_append_left _ (List.mem_map.2 ⟨o, ho, ?_⟩)
    rw [List.flatMap_nil, List.append_nil]
  | cons first before ih =>
    rw [List.cons_append, occurrencesIn, List.flatMap_cons, ← List.append_assoc]
    exact List.mem_append_right _ (ih _)

/-- The statements that a run comes to stand in the text. -/
theorem Stmt.Reaches.mem_occurrences (h : s.Reaches fuel st scopes t mid)
    (he : t.expression? = some e) (hx : x ∈ e.occurrences) : ⟨x, scopes⟩ ∈ s.occurrences := by
  induction h with
  | @here s st =>
    have hown : (⟨x, []⟩ : Occurrence) ∈ e.occurrences.map (⟨·, []⟩) :=
      List.mem_map.2 ⟨x, hx, rfl⟩
    cases s with
    | expression e' | print e' =>
      cases he
      exact hown
    | declare y initial =>
      cases he
      exact hown
    | block body => cases he
    | branch c yes no =>
      cases he
      cases no with
      | none => exact List.mem_append_left _ hown
      | some no => exact List.mem_append_left _ (List.mem_append_left _ hown)
    | loop c body =>
      cases he
      exact List.mem_append_left _ hown
  | block _ _ ih => exact within_mem_occurrencesIn (ih he) [] _ _
  | @branch c v yes no s _ _ _ _ _ _ hs _ ih =>
    split at hs
    · cases hs
      cases no with
      | none => exact List.mem_append_right _ (ih he)
      | some no => exact List.mem_append_left _ (List.mem_append_right _ (ih he))
    · cases hs
      exact List.mem_append_right _ (ih he)
  | turn _ _ _ ih => exact List.mem_append_right _ (ih he)
  | again _ _ _ _ ih => exact ih he

theorem Stmt.Evaluates.mem_occurrencesIn {program : List Stmt} {o : Occurrence}
    (h : Stmt.Evaluates fuel known program st o env) :
    o ∈ Stmt.occurrencesIn known program := by
  obtain ⟨t, e, mid, ⟨before, s, after, entered, inner, rfl, -, hscopes, hs⟩, he, hvisit⟩ := h
  have hmem := hs.mem_occurrences he hvisit.mem_occurrences
  have hin := Stmt.within_mem_occurrencesIn hmem known before after
  rw [Occurrence.within, ← hscopes] at hin
  exact hin

/-! ## The scopes mirror the text -/

/-- Every place belongs to one of the scopes. -/
theorem exists_suffix_of_lt {place : Nat} (h : place < scopes.length) :
    ∃ names outer, names :: outer <:+ scopes ∧ outer.length = place := by
  induction scopes with
  | nil => cases h
  | cons names outer ih =>
    rcases Nat.lt_succ_iff_lt_or_eq.1 h with hlt | rfl
    · obtain ⟨names', outer', hsuffix, hlen⟩ := ih hlt
      exact ⟨names', outer', hsuffix.trans (List.suffix_cons _ _), hlen⟩
    · exact ⟨names, outer, List.suffix_rfl, rfl⟩

/-- The place of a name is that of the innermost scope that has it. -/
theorem Occurrence.placeIn?_eq_some {x : String} {place : Nat}
    (h : placeIn? x scopes = some place) :
    (∃ names outer, names :: outer <:+ scopes ∧ outer.length = place ∧ x ∈ names) ∧
      ∀ names outer, names :: outer <:+ scopes → x ∈ names → outer.length ≤ place := by
  induction scopes with
  | nil => cases h
  | cons first rest ih =>
    rw [placeIn?] at h
    split at h
    next hx =>
      cases h
      refine ⟨⟨first, rest, List.suffix_rfl, rfl, hx⟩, ?_⟩
      intro names outer hsuffix _
      simpa using hsuffix.length_le
    next hx =>
      obtain ⟨⟨names, outer, hsuffix, hlen, hmem⟩, hmax⟩ := ih h
      refine ⟨⟨names, outer, hsuffix.trans (List.suffix_cons _ _), hlen, hmem⟩, ?_⟩
      intro names' outer' hsuffix' hmem'
      rcases List.suffix_cons_iff.1 hsuffix' with heq | hsuffix'
      · cases heq
        exact absurd hmem' hx
      · exact hmax names' outer' hsuffix' hmem'

/-- The open scopes bind exactly the names of `scopes`, which lists them from the innermost
scope outwards. -/
structure Mirrors (scopes : List (List String)) (env : Environment) : Prop where
  chained : env.Chained
  depth : env.depth = scopes.length
  binds : ∀ names outer, names :: outer <:+ scopes →
    ∀ x, env.Binds outer.length x ↔ x ∈ names

namespace Mirrors

theorem of_sameNames (h : Mirrors scopes env) (hs : env.SameNames env') :
    Mirrors scopes env' := by
  refine ⟨h.chained.of_same hs.chain, hs.chain.depth.trans h.depth, ?_⟩
  intro names outer hsuffix x
  rw [hs.binds]
  exact h.binds names outer hsuffix x

/-- A new scope binds nothing. -/
theorem push (h : Mirrors scopes env) : Mirrors ([] :: scopes) env.push := by
  refine ⟨h.chained.push, by simp [h.depth], ?_⟩
  intro names outer hsuffix x
  rw [Environment.binds_push]
  rcases List.suffix_cons_iff.1 hsuffix with heq | hsuffix
  · cases heq
    constructor
    · intro hbound
      have hlt := hbound.lt_depth
      rw [h.depth] at hlt
      exact absurd hlt (Nat.lt_irrefl _)
    · exact fun hx => nomatch hx
  · exact h.binds names outer hsuffix x

/-- A declaration adds a name to the innermost scope. -/
theorem define {name : String} {v : Value} (h : Mirrors (names :: outer) env)
    (hd : env.define name v = .ok env') : Mirrors ((names ++ [name]) :: outer) env' := by
  obtain ⟨hchain, hnames⟩ := Environment.define_names hd
  have hcurrent : env.current = outer.length := by
    have hsize : env.current + 1 = env.depth := h.chained.current
    rw [h.depth, List.length_cons] at hsize
    omega
  refine ⟨h.chained.of_same hchain, hchain.depth.trans h.depth, ?_⟩
  intro names' outer' hsuffix x
  rw [hnames, hcurrent]
  rcases List.suffix_cons_iff.1 hsuffix with heq | hsuffix
  · cases heq
    rw [h.binds names outer List.suffix_rfl, List.mem_append, List.mem_singleton]
    simp
  · have hne : outer'.length ≠ outer.length := by
      have hle := hsuffix.length_le
      rw [List.length_cons] at hle
      omega
    rw [h.binds names' outer' (hsuffix.trans (List.suffix_cons _ _))]
    simp [hne]

/-- The scope that binds a name is where the text says. -/
theorem resolve (h : Mirrors scopes env) {x : String} {place : Nat}
    (hp : Occurrence.placeIn? x scopes = some place) : env.resolve x = .ok (some place) := by
  obtain ⟨⟨names, outer, hsuffix, rfl, hx⟩, hmax⟩ := Occurrence.placeIn?_eq_some hp
  refine (Environment.resolve_eq_some_iff h.chained).2 ⟨(h.binds _ _ hsuffix x).2 hx, ?_⟩
  intro q hq
  have hlt := hq.lt_depth
  rw [h.depth] at hlt
  obtain ⟨names', outer', hsuffix', rfl⟩ := exists_suffix_of_lt hlt
  exact hmax names' outer' hsuffix' ((h.binds _ _ hsuffix' x).1 hq)

end Mirrors

/-! ## Runs keep the mirror -/

/-- Where no branch and no body of a loop is a declaration, only a declaration declares. -/
theorem Stmt.Plain.not_declares {x : String} (hs : s.Plain) : ¬ s.Declares fuel st x := by
  rintro ⟨name, initial, mid, -, hr⟩
  generalize hscopes : ([] : List (List String)) = scopes at hr
  generalize ht : Stmt.declare name initial = t at hr
  induction hr with
  | here =>
    subst ht
    cases hs.2
  | block _ _ _ => simp at hscopes
  | @branch c v yes no s _ _ _ _ _ _ hc _ ih =>
    cases hs.1 with
    | branch _ hyes hyes' hno hno' =>
      have hchosen : s.Plain :=
        Stmt.of_chosen hc ⟨hyes, hyes'⟩ fun t ht => ⟨hno t ht, hno' t ht⟩
      exact ih hchosen hscopes ht
  | turn _ _ _ ih =>
    cases hs.1 with
    | loop _ hbody hbody' => exact ih ⟨hbody, hbody'⟩ hscopes ht
  | again _ _ _ _ ih => exact ih hs hscopes ht

/-- A statement that is no declaration leaves the names of every scope as they are. -/
theorem Stmt.Plain.sameNames (hs : s.Plain) (fuel : Nat) (hst : st.Chained) :
    st.env.SameNames (final (s.exec fuel st)).env := by
  have h := extends_exec s fuel st hst
  refine ⟨h.chain, ?_⟩
  intro place x
  constructor
  · intro hx
    rcases h.gained place x hx with hx | ⟨-, hx⟩
    · exact hx
    · exact absurd hx hs.not_declares
  · exact h.kept place x

theorem evaluate_sameNames {v : Value} (h : evaluate e st = .ok v st') :
    st.env.SameNames st'.env := by
  have hframe := (evaluate_frame e st).1
  rwa [h] at hframe

theorem define_eq_ok {name : String} {v : Value} {u : Unit}
    (h : State.define name v st = .ok u st') : st.env.define name v = .ok st'.env := by
  obtain ⟨env, out⟩ := st
  rw [State.define] at h
  cases hd : env.define name v with
  | ok env' =>
    rw [hd] at h
    cases h
    rfl
  | error halt =>
    rw [hd] at h
    cases h

/-- A declaration evaluates its initial value, if it has one, and then binds its name. -/
theorem exec_declare_eq_ok {initial : Option Expr} {v : Option Value}
    (h : (Stmt.declare x initial).exec fuel st = .ok v st') :
    ∃ (value : Value) (mid : State), st.env.SameNames mid.env ∧
      mid.env.define x.lexeme value = .ok st'.env := by
  cases initial with
  | none =>
    rw [Stmt.exec, bind_eq_ok_iff] at h
    obtain ⟨value, mid, hv, h⟩ := h
    cases hv
    obtain ⟨_, _, hd, h⟩ := bind_eq_ok_iff.1 h
    cases h
    exact ⟨_, st, .refl _, define_eq_ok hd⟩
  | some e =>
    rw [Stmt.exec, bind_eq_ok_iff] at h
    obtain ⟨value, mid, hv, h⟩ := h
    obtain ⟨_, _, hd, h⟩ := bind_eq_ok_iff.1 h
    cases h
    exact ⟨value, mid, evaluate_sameNames hv, define_eq_ok hd⟩

namespace Mirrors

/-- After a statement the innermost scope also binds the name that it declares. -/
theorem exec {v : Option Value} (hm : Mirrors (names :: outer) st.env) (hs : s.Shaped)
    (h : s.exec fuel st = .ok v st') : Mirrors ((names ++ s.declares) :: outer) st'.env := by
  have hplain : s.isDeclaration = false → s.declares = [] →
      Mirrors ((names ++ s.declares) :: outer) st'.env := by
    intro hd hnone
    have hsame := Stmt.Plain.sameNames ⟨hs, hd⟩ fuel hm.chained
    rw [h] at hsame
    rw [hnone, List.append_nil]
    exact hm.of_sameNames hsame
  cases s with
  | declare x initial =>
    obtain ⟨value, mid, hsame, hd⟩ := exec_declare_eq_ok h
    exact (hm.of_sameNames hsame).define hd
  | _ => exact hplain rfl rfl

theorem execAll (hm : Mirrors (names :: outer) st.env) (hbody : ∀ s ∈ body, s.Shaped)
    (h : Stmt.execAll fuel body st = .ok () st') :
    Mirrors ((names ++ body.flatMap Stmt.declares) :: outer) st'.env := by
  induction body generalizing st names with
  | nil =>
    cases h
    simpa using hm
  | cons s rest ih =>
    rw [Stmt.execAll, bind_eq_ok_iff] at h
    obtain ⟨v, mid, hs, h⟩ := h
    have hnext := hm.exec (hbody s List.mem_cons_self) hs
    have hlast := ih hnext (fun t ht => hbody t (List.mem_cons_of_mem s ht)) h
    rwa [List.append_assoc, ← List.flatMap_cons] at hlast

/-- **The mirror at every statement that a run comes to**, in every turn of every loop. -/
theorem reaches (hm : Mirrors outer st.env) (hs : s.Shaped)
    (h : s.Reaches fuel st scopes t mid) : Mirrors (scopes ++ outer) mid.env := by
  -- a block puts the names declared so far in it before those of the scopes around it
  induction h generalizing outer with
  | here => exact hm
  | @block before s after st entered scopes t mid hrun _ ih =>
    cases hs with
    | block hbody =>
      have hopened : Mirrors ([] :: outer) st.opened.env := hm.push
      have hentered := hopened.execAll (fun u hu => hbody u (List.mem_append_left _ hu)) hrun
      rw [List.append_assoc]
      exact ih hentered (hbody s (by simp))
  | @branch c v yes no s _ _ _ _ _ hc hchoice _ ih =>
    cases hs with
    | branch _ hyes _ hno _ =>
      have hchosen := hm.of_sameNames (evaluate_sameNames hc)
      exact ih hchosen (Stmt.of_chosen hchoice hyes hno)
  | turn hc _ _ ih =>
    cases hs with
    | loop _ hbody _ => exact ih (hm.of_sameNames (evaluate_sameNames hc)) hbody
  | @again c v w body st chosen turned _ _ _ hc _ hb _ ih =>
    cases hs with
    | loop hcond hbody hbody' =>
      have hchosen := hm.of_sameNames (evaluate_sameNames hc)
      have hsame := Stmt.Plain.sameNames ⟨hbody, hbody'⟩ fuel hchosen.chained
      rw [hb] at hsame
      exact ih (hchosen.of_sameNames hsame) (.loop hcond hbody hbody')

end Mirrors

theorem Stmt.ReachesIn.mirrors {program : List Stmt} (hm : Mirrors [known] st.env)
    (hshaped : ∀ s ∈ program, s.Shaped)
    (h : Stmt.ReachesIn fuel known program st scopes t mid) : Mirrors scopes mid.env := by
  obtain ⟨before, s, after, entered, inner, rfl, hrun, rfl, hs⟩ := h
  have hentered := hm.execAll (fun u hu => hshaped u (List.mem_append_left _ hu)) hrun
  exact hentered.reaches (hshaped s (by simp)) hs

/-- Whenever an occurrence is evaluated, the scopes mirror the text around it. -/
theorem Stmt.Evaluates.mirrors {program : List Stmt} {o : Occurrence}
    (hm : Mirrors [known] st.env) (hshaped : ∀ s ∈ program, s.Shaped)
    (h : Stmt.Evaluates fuel known program st o env) : Mirrors o.scopes env := by
  obtain ⟨t, e, mid, hreach, -, hvisit⟩ := h
  exact (hreach.mirrors hm hshaped).of_sameNames hvisit.sameNames

/-! ## Undefined names -/

namespace Value

variable {op : Token} {v w : Value} {error : RuntimeError}

theorem invalidOperand_of_unary (h : unary op v = .error error) :
    ∃ u, error = .invalidOperand op u := by
  unfold unary at h
  split at h
  · cases h
  · cases h
  · cases h
    exact ⟨_, rfl⟩

theorem invalidOperand_of_invalid (h : invalid op v = .error (.raised error)) :
    ∃ u, error = .invalidOperand op u := by
  cases h
  exact ⟨v, rfl⟩

theorem invalidOperand_of_calculate (h : calculate op v w = .error (.raised error)) :
    ∃ u, error = .invalidOperand op u := by
  unfold calculate at h
  split at h
  · split at h <;> cases h
  · exact invalidOperand_of_invalid h
  · split at h
    · split at h
      · cases h
      · exact invalidOperand_of_invalid h
    · exact invalidOperand_of_invalid h
  · exact invalidOperand_of_invalid h

theorem invalidOperand_of_compare (h : compare op v w = .error (.raised error)) :
    ∃ u, error = .invalidOperand op u := by
  unfold compare at h
  split at h
  · split at h <;> cases h
  · exact invalidOperand_of_invalid h
  · exact invalidOperand_of_invalid h

/-- An operator raises no other error than that of an operand that it cannot take. -/
theorem invalidOperand_of_binary (h : binary op v w = .error (.raised error)) :
    ∃ u, error = .invalidOperand op u := by
  unfold binary at h
  split at h
  case h_9 => cases h
  case h_10 => cases h
  case h_11 => cases h
  case h_1 | h_2 | h_3 | h_4 => exact invalidOperand_of_calculate h
  all_goals exact invalidOperand_of_compare h

end Value

/-- A name that turns out to be undefined is one that was looked up and not found. -/
theorem Expr.visits_of_undefined (henv : env.Chained)
    (h : e.eval env = .error (.raised (.undefined x)) env') :
    ∃ mid, e.Visits env x mid ∧ mid.resolve x.lexeme = .ok none := by
  have hnext : ∀ {e : Expr} {v env env'}, env.Chained → e.eval env = .ok v env' →
      env'.Chained := by
    intro e v env env' henv he
    have hmove := moves_eval e env
    rw [he] at hmove
    exact henv.of_same hmove.chain
  induction e generalizing env env' with
  | literal v => cases h
  | group e ih =>
    obtain ⟨mid, hvisit, hnone⟩ := ih henv h
    exact ⟨mid, .group hvisit, hnone⟩
  | unary op e ih =>
    rcases bind_eq_error_iff.1 h with h | ⟨v, mid, -, h⟩
    · obtain ⟨mid, hvisit, hnone⟩ := ih henv h
      exact ⟨mid, .unary hvisit, hnone⟩
    · cases hv : Value.unary op v with
      | ok w =>
        rw [hv] at h
        cases h
      | error error =>
        obtain ⟨u, rfl⟩ := Value.invalidOperand_of_unary hv
        rw [hv] at h
        cases h
  | binary l op r ihl ihr =>
    rcases bind_eq_error_iff.1 h with h | ⟨v, env₁, hl, h⟩
    · obtain ⟨mid, hvisit, hnone⟩ := ihl henv h
      exact ⟨mid, .left hvisit, hnone⟩
    · rcases bind_eq_error_iff.1 h with h | ⟨w, last, -, h⟩
      · obtain ⟨mid, hvisit, hnone⟩ := ihr (hnext henv hl) h
        exact ⟨mid, .right hl hvisit, hnone⟩
      · cases hv : Value.binary op v w with
        | ok u =>
          rw [hv] at h
          cases h
        | error halt =>
          rw [hv] at h
          cases h
          obtain ⟨u, hu⟩ := Value.invalidOperand_of_binary hv
          cases hu
  | logical l op r ihl ihr =>
    rcases bind_eq_error_iff.1 h with h | ⟨v, env₁, hl, h⟩
    · obtain ⟨mid, hvisit, hnone⟩ := ihl henv h
      exact ⟨mid, .first hvisit, hnone⟩
    · split at h
      next => cases h
      next hv =>
        obtain ⟨mid, hvisit, hnone⟩ := ihr (hnext henv hl) h
        exact ⟨mid, .second hl (Bool.eq_false_iff.2 hv) hvisit, hnone⟩
  | var y =>
    rw [Expr.eval, Environment.read] at h
    cases hg : env.get y with
    | ok v =>
      rw [hg] at h
      cases h
    | error halt =>
      obtain ⟨rfl, hnone⟩ := Environment.get_error henv hg
      rw [hg] at h
      cases h
      exact ⟨env, .var, hnone⟩
  | assign y e ih =>
    rcases bind_eq_error_iff.1 h with h | ⟨v, env₁, he, h⟩
    · obtain ⟨mid, hvisit, hnone⟩ := ih henv h
      exact ⟨mid, .value hvisit, hnone⟩
    · rcases bind_eq_error_iff.1 h with h | ⟨_, _, -, h⟩
      · rw [Environment.store] at h
        cases ha : env₁.assign y v with
        | ok last =>
          rw [ha] at h
          cases h
        | error halt =>
          obtain ⟨rfl, hnone⟩ := Environment.assign_error (hnext henv he) ha
          rw [ha] at h
          cases h
          exact ⟨_, .target he, hnone⟩
      · cases h

theorem eval_of_evaluate {halt : Halt RuntimeError} (h : evaluate e st = .error halt st') :
    e.eval st.env = .error halt st'.env := by
  obtain ⟨env, out⟩ := st
  rw [evaluate, onEnv] at h
  cases hr : e.eval env with
  | ok v env' =>
    rw [hr] at h
    cases h
  | error halt' env' =>
    rw [hr] at h
    cases h
    rfl

/-- A program that ends at an undefined name has evaluated an occurrence of it that no open
scope binds. -/
theorem evaluates_of_undefined {program : List Stmt} (hm : Mirrors [known] st.env)
    (hshaped : ∀ s ∈ program, s.Shaped)
    (h : Stmt.interpret fuel program st = .error (.raised (.undefined x)) st') :
    ∃ o env, o.name = x ∧ Stmt.Evaluates fuel known program st o env ∧
      env.resolve x.lexeme = .ok none := by
  have hall : Stmt.execAll fuel program st = .error (.raised (.undefined x)) st' := by
    rw [execAll_eq_interpret]
    exact map_eq_error_iff.2 h
  rcases execAll_error known (fun s _ st st' => exec_error s) hall with hfail | hown
  · obtain ⟨scopes, t, e, mid, mid', hreach, he, hfail⟩ := hfail
    have hmid := hreach.mirrors hm hshaped
    obtain ⟨env, hvisit, hnone⟩ := Expr.visits_of_undefined hmid.chained (eval_of_evaluate hfail)
    exact ⟨⟨x, scopes⟩, env, rfl, ⟨t, e, mid, hreach, he, hvisit⟩, hnone⟩
  · rcases hown with hfuel | ⟨cause, hout⟩ | ⟨size, place, hstray⟩
    · cases hfuel
    · cases hout
    · cases hstray

/-- **Lookup is lexical.**  Let a program be parsed, and run in a state in which only the
outermost scope is open and binds the names `known`.  Let every occurrence in its text be
declared, in an earlier statement of a block around it or at the top level.  Then no run of
the program ends at an undefined name, and an occurrence that is evaluated is found in the
scope of its declaration, of which the place is the number of blocks around it, each time. -/
theorem lookup_is_lexical (tokens : List Token) (st : State) (known : List String)
    (hst : st.Chained) (hdepth : st.env.depth = 1)
    (hknown : ∀ x, st.env.Binds 0 x ↔ x ∈ known)
    (hdeclared : ∀ o ∈ Stmt.occurrencesIn known (parse tokens).statements, o.place?.isSome) :
    (∀ fuel x st', Stmt.interpret fuel (parse tokens).statements st ≠
      .error (.raised (.undefined x)) st') ∧
    ∀ fuel o env, Stmt.Evaluates fuel known (parse tokens).statements st o env →
      o ∈ Stmt.occurrencesIn known (parse tokens).statements ∧
        ∃ place, o.place? = some place ∧ env.resolve o.name.lexeme = .ok (some place) := by
  have hshaped : ∀ s ∈ (parse tokens).statements, s.Shaped := fun _ => shaped_of_mem_parse
  have hm : Mirrors [known] st.env := by
    refine ⟨hst, hdepth, ?_⟩
    intro names outer hsuffix
    obtain ⟨rfl, rfl⟩ : names = known ∧ outer = [] := by
      simpa [List.suffix_cons_iff] using hsuffix
    exact hknown
  have hfound : ∀ fuel o env, Stmt.Evaluates fuel known (parse tokens).statements st o env →
      o ∈ Stmt.occurrencesIn known (parse tokens).statements ∧
        ∃ place, o.place? = some place ∧ env.resolve o.name.lexeme = .ok (some place) := by
    intro fuel o env h
    have hmem := h.mem_occurrencesIn
    obtain ⟨place, hplace⟩ := Option.isSome_iff_exists.1 (hdeclared o hmem)
    exact ⟨hmem, place, hplace, (h.mirrors hm hshaped).resolve hplace⟩
  refine ⟨?_, hfound⟩
  intro fuel x st' h
  obtain ⟨o, env, rfl, heval, hnone⟩ := evaluates_of_undefined hm hshaped h
  obtain ⟨-, place, -, hsome⟩ := hfound fuel o env heval
  rw [hnone] at hsome
  cases hsome

/-- If `a` is true, then `while (a) { var b = !a; a = b; }` makes a turn and ends.  In this turn
`a` is found at the top level, and `b` in the block. -/
theorem loop_is_lexical :
    let word := fun kind : Kind => (⟨kind, 1, kind.text, none⟩ : Token)
    let name := fun x : String => (⟨.identifier, 1, x, none⟩ : Token)
    let tokens := [word .whileWord, word .leftParen, name "a", word .rightParen, word .leftBrace,
      word .varWord, name "b", word .equal, word .bang, name "a", word .semicolon,
      name "a", word .equal, name "b", word .semicolon, word .rightBrace]
    let st : State := ⟨⟨#[⟨[("a", .bool true)], none⟩], 0⟩, .new none none⟩
    (Stmt.occurrencesIn ["a"] (parse tokens).statements).map Occurrence.place? =
      [some 0, some 0, some 1, some 0] ∧
    (∀ fuel x st', Stmt.interpret fuel (parse tokens).statements st ≠
      .error (.raised (.undefined x)) st') ∧
    (∃ st', Stmt.interpret 2 (parse tokens).statements st = .ok none st' ∧
      st'.env.get (name "a") = .ok (.bool false)) ∧
    ∃ env, Stmt.Evaluates 2 ["a"] (parse tokens).statements st ⟨name "b", [["b"], ["a"]]⟩ env ∧
      env.resolve "b" = .ok (some 1) := by
  intro word name tokens st
  have hplaces : (Stmt.occurrencesIn ["a"] (parse tokens).statements).map Occurrence.place? =
      [some 0, some 0, some 1, some 0] := by rfl
  have hst : st.Chained := by
    refine ⟨rfl, ?_⟩
    intro i scope hi
    cases i with
    | zero => cases hi; rfl
    | succ i => exact absurd hi (by simp [st])
  have hknown : ∀ x, st.env.Binds 0 x ↔ x ∈ ["a"] := by
    intro x
    simp [Environment.Binds, st, Scope.get?]
  have hdeclared : ∀ o ∈ Stmt.occurrencesIn ["a"] (parse tokens).statements,
      o.place?.isSome := by
    intro o ho
    have hmem := List.mem_map_of_mem (f := Occurrence.place?) ho
    rw [hplaces] at hmem
    revert hmem
    cases o.place? <;> simp
  obtain ⟨hdefined, hfound⟩ := lookup_is_lexical tokens st ["a"] hst rfl hknown hdeclared
  -- the first turn comes to the second statement of the block
  have hvisited : ∃ env, Stmt.Evaluates 2 ["a"] (parse tokens).statements st
      ⟨name "b", [["b"], ["a"]]⟩ env :=
    have hinner := .of_body ⟨[_], _, [], _, [], rfl, rfl, rfl, .here⟩
    ⟨_, _, _, _, .head (.turn rfl rfl hinner), rfl, .value .var⟩
  obtain ⟨env, hvisited⟩ := hvisited
  obtain ⟨-, place, hplace, hresolve⟩ := hfound 2 _ env hvisited
  obtain rfl : 1 = place := Option.some.inj hplace
  exact ⟨hplaces, hdefined, ⟨_, rfl, rfl⟩, env, hvisited, hresolve⟩

end Lox
