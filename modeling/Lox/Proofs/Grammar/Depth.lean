import Lox.Proofs.Grammar.Contract

/-!
# How deep parsed trees are

The levels of nesting that a parser may open bound the paths of the trees that it returns.  A
group, a sign and an assignment open a level each, so a path has fewer of these than there are
levels.  Other nodes are on a path as well: each level has six tiers of operators, and a
counting loop stands for up to four statements.  Only chains of operators to the left, which
are read in a loop, have no bound.

* `Node`, `Node.Path` — the nodes of a tree, and the paths from a node to a leaf.
* `Node.Within` — all paths from a node have fewer wrapping nodes and fewer edges than given.
* `within_parse`, `within_parseExpression` — the bounds for parsed programs and expressions.
-/

namespace Lox

/-! ## Paths -/

/-- A node of a tree. -/
inductive Node where
  | expr (e : Expr)
  | stmt (s : Stmt)

/-- The edges of a tree: those to the left operand of an operator, and all others. -/
inductive Edge where
  | left
  | other
  deriving DecidableEq

namespace Node

/-- The nodes just below a node. -/
def children : Node → List (Edge × Node)
  | expr (.literal _) | expr (.var _) => []
  | expr (.group e) | expr (.unary _ e) | expr (.assign _ e) => [(.other, expr e)]
  | expr (.binary l _ r) | expr (.logical l _ r) => [(.left, expr l), (.other, expr r)]
  | stmt (.expression e) | stmt (.print e) => [(.other, expr e)]
  | stmt (.declare _ initial) => initial.toList.map fun e => (.other, expr e)
  | stmt (.block body) => body.map fun s => (.other, stmt s)
  | stmt (.branch c yes no) =>
    (.other, expr c) :: (.other, stmt yes) :: no.toList.map fun s => (.other, stmt s)
  | stmt (.loop c body) => [(.other, expr c), (.other, stmt body)]

/-- Is a node a group, a sign or negation, or an assignment? -/
def wraps : Node → Bool
  | expr (.group _) | expr (.unary _ _) | expr (.assign _ _) => true
  | _ => false

/-- `Path x nodes edges`: the nodes, of which `x` is the first, and the edges between them lead
from `x` to a leaf. -/
inductive Path : Node → List Node → List Edge → Prop where
  | leaf {x} (h : x.children = []) : Path x [x] []
  | step {x y edge nodes edges} (h : (edge, y) ∈ x.children) (rest : Path y nodes edges) :
      Path x (x :: nodes) (edge :: edges)

/-- On every path from the node to a leaf there are fewer than `wrapping` groups, signs and
assignments, and fewer than `length` edges that do not lead to a left operand. -/
def Within (wrapping length : Nat) (x : Node) : Prop :=
  ∀ nodes edges, x.Path nodes edges →
    nodes.countP wraps < wrapping ∧ edges.count .other < length

variable {x y : Node} {w w' k k' : Nat}

theorem Within.mono (h : x.Within w k) (hw : w ≤ w') (hk : k ≤ k') : x.Within w' k' := by
  intro nodes edges hpath
  obtain ⟨hwraps, hedges⟩ := h nodes edges hpath
  omega

/-- A node that does not wrap adds at most an edge to the paths of the nodes below it. -/
theorem within_of_children (hwraps : x.wraps = false) (hw : 0 < w)
    (hleft : ∀ y, (.left, y) ∈ x.children → y.Within w (k + 1))
    (hother : ∀ y, (.other, y) ∈ x.children → y.Within w k) : x.Within w (k + 1) := by
  intro nodes edges hpath
  cases hpath with
  | leaf => simpa [hwraps] using hw
  | @step _ y edge nodes edges hy rest =>
    cases edge with
    | left => simpa [hwraps] using hleft y hy nodes edges rest
    | other => simpa [hwraps] using hother y hy nodes edges rest

/-- A node that wraps another one adds itself and an edge. -/
theorem within_of_child (hchildren : x.children = [(.other, y)]) (hy : y.Within w k) :
    x.Within (w + 1) (k + 1) := by
  intro nodes edges hpath
  cases hpath with
  | leaf h =>
    rw [hchildren] at h
    cases h
  | @step _ z edge nodes edges hz rest =>
    rw [hchildren, List.mem_singleton] at hz
    cases hz
    obtain ⟨hnodes, hedges⟩ := hy nodes edges rest
    rw [List.countP_cons, List.count_cons_self]
    split <;> omega

variable {e c l r : Expr} {op : Token} {s body yes : Stmt} {no : Option Stmt}

theorem within_literal (hw : 0 < w) (v : Value) : (expr (.literal v)).Within w (k + 1) :=
  within_of_children rfl hw (by simp [children]) (by simp [children])

theorem within_var (hw : 0 < w) (t : Token) : (expr (.var t)).Within w (k + 1) :=
  within_of_children rfl hw (by simp [children]) (by simp [children])

/-- The left operand may be as deep as the whole. -/
theorem within_join (hw : 0 < w) (hl : (expr l).Within w (k + 1)) (hr : (expr r).Within w k) :
    (expr (Grammar.join l op r)).Within w (k + 1) := by
  have hboth : ∀ {x : Node}, x.wraps = false →
      x.children = [(.left, expr l), (.other, expr r)] → x.Within w (k + 1) := by
    intro x hwraps hx
    exact within_of_children hwraps hw (by simpa [hx] using hl) (by simpa [hx] using hr)
  rw [Grammar.join]
  split <;> exact hboth rfl rfl

theorem within_expression (hw : 0 < w) (he : (expr e).Within w k) :
    (stmt (.expression e)).Within w (k + 1) :=
  within_of_children rfl hw (by simp [children]) (by simpa [children] using he)

theorem within_print (hw : 0 < w) (he : (expr e).Within w k) :
    (stmt (.print e)).Within w (k + 1) :=
  within_of_children rfl hw (by simp [children]) (by simpa [children] using he)

theorem within_declare (hw : 0 < w) (t : Token) {initial : Option Expr}
    (he : ∀ e ∈ initial, (expr e).Within w k) : (stmt (.declare t initial)).Within w (k + 1) :=
  within_of_children rfl hw (by simp [children]) (by simpa [children] using he)

theorem within_block (hw : 0 < w) {body : List Stmt} (hbody : ∀ s ∈ body, (stmt s).Within w k) :
    (stmt (.block body)).Within w (k + 1) :=
  within_of_children rfl hw (by simp [children]) (by simpa [children] using hbody)

theorem within_branch (hw : 0 < w) (hc : (expr c).Within w k) (hyes : (stmt yes).Within w k)
    (hno : ∀ s ∈ no, (stmt s).Within w k) : (stmt (.branch c yes no)).Within w (k + 1) :=
  within_of_children rfl hw (by simp [children]) (by simpa [children] using ⟨hc, hyes, hno⟩)

theorem within_loop (hw : 0 < w) (hc : (expr c).Within w k) (hbody : (stmt body).Within w k) :
    (stmt (.loop c body)).Within w (k + 1) :=
  within_of_children rfl hw (by simp [children]) (by simpa [children] using ⟨hc, hbody⟩)

/-- A counting loop has a block, a loop, another block and the step around an expression. -/
theorem within_counting (hw : 0 < w) (hk : 0 < k) {initial : Option Stmt}
    {condition step : Option Expr} (hi : ∀ s ∈ initial, (stmt s).Within w (k + 1))
    (hc : ∀ e ∈ condition, (expr e).Within w k) (hs : ∀ e ∈ step, (expr e).Within w k)
    (hb : (stmt body).Within w k) :
    (stmt (.counting initial condition step body)).Within w (k + 4) := by
  have hcond : (expr (condition.getD (.literal (.bool true)))).Within w k := by
    cases condition with
    | none => exact (within_literal (k := 0) hw _).mono (Nat.le_refl w) hk
    | some c => exact hc c rfl
  have hwhole : ∀ turn, (stmt turn).Within w (k + 2) →
      (stmt (.counting initial condition none turn)).Within w (k + 4) := by
    intro turn hturn
    have hloop := within_loop hw (hcond.mono (Nat.le_refl w) (by omega)) hturn
    cases initial with
    | none => exact hloop.mono (Nat.le_refl w) (by omega)
    | some i =>
      have hinitial := (hi i rfl).mono (Nat.le_refl w) (by omega : k + 1 ≤ k + 3)
      exact within_block hw (by simpa using ⟨hinitial, hloop⟩)
  cases step with
  | none => exact hwhole body (hb.mono (Nat.le_refl w) (by omega))
  | some e =>
    have hbody := hb.mono (Nat.le_refl w) (Nat.le_succ k)
    have hstep := within_expression hw (hs e rfl)
    exact hwhole _ (within_block hw (by simpa using ⟨hbody, hstep⟩))

end Node

/-! ## Levels of nesting -/

/-- The bounds for the trees of `n` levels of nesting. -/
def Promise.ofLevels (n : Nat) : Promise where
  upTo tier e := (Node.expr e).Within n (7 * n + tier - 6)
  expression e := (Node.expr e).Within n (7 * n)
  statement s := (Node.stmt s).Within n (7 * n)

namespace Promise

variable {T : Token → Prop} {n w : Nat} {s : Stmt}

theorem Declares.within (h : (ofLevels n).Declares T s) (hn : n ≤ w) (hw : 0 < w) :
    (Node.stmt s).Within w (7 * n + 1) := by
  obtain ⟨x, initial, rfl, -, -, he⟩ := h
  exact Node.within_declare hw x fun e hmem => (he e hmem).mono hn (Nat.le_refl _)

theorem Evaluates.within (h : (ofLevels n).Evaluates s) (hn : n ≤ w) (hw : 0 < w) :
    (Node.stmt s).Within w (7 * n + 1) := by
  obtain ⟨e, rfl, he⟩ := h
  exact Node.within_expression hw (he.mono hn (Nat.le_refl _))

/-- A level adds at most seven edges to a path, and one node that wraps. -/
theorem builds_ofLevels (T : Token → Prop) (n : Nat) :
    (ofLevels n).Builds T (ofLevels (n + 1)) := by
  have hw : 0 < n + 1 := Nat.succ_pos n
  have hinner : ∀ {x : Node}, x.Within n (7 * n) → x.Within (n + 1) (7 * n + 1) :=
    fun h => h.mono (Nat.le_succ n) (Nat.le_succ _)
  have htier : ∀ {x : Node} {tier}, x.Within (n + 1) (7 * n + tier + 1) ↔
      x.Within (n + 1) (7 * (n + 1) + tier - 6) := by
    intro x tier
    rw [show 7 * (n + 1) + tier - 6 = 7 * n + tier + 1 by omega]
  have houter : ∀ {x : Node} {k}, x.Within (n + 1) k → k ≤ 7 * (n + 1) →
      x.Within (n + 1) (7 * (n + 1)) := fun h hk => h.mono (Nat.le_refl _) hk
  constructor
  case literal => exact fun {_ v} _ _ => htier.1 (Node.within_literal hw v)
  case var => exact fun {x} _ _ => htier.1 (Node.within_var hw x)
  case group => exact fun he => htier.1 (Node.within_of_child rfl he)
  case unary =>
    intro op e _ _ he
    exact htier.1 (Node.within_of_child rfl (he.mono (Nat.le_refl n) (by omega)))
  case looser => exact fun he => he.mono (Nat.le_refl _) (by omega)
  case join =>
    intro tier l op r _ _ hl hr
    exact htier.1 (Node.within_join hw (htier.2 hl) (htier.2 hr))
  case whole => exact fun he => houter he (by simp [Grammar.tiers])
  case assign => exact fun _ he => houter (Node.within_of_child rfl he) (by omega)
  case evaluates => exact fun h => houter (h.within (Nat.le_succ n) hw) (by omega)
  case print => exact fun he => houter (Node.within_print hw (hinner he)) (by omega)
  case block =>
    intro body hbody
    refine houter (Node.within_block hw fun s hs => ?_) (by omega : 7 * n + 1 + 1 ≤ _)
    rcases hbody s hs with h | h
    · exact h.within (Nat.le_succ n) hw
    · exact hinner h
  case branch =>
    intro c yes no hc hyes hno
    exact houter (Node.within_branch hw (hinner hc) (hinner hyes) fun s hs => hinner (hno s hs))
      (by omega)
  case loop =>
    exact fun hc hbody => houter (Node.within_loop hw (hinner hc) (hinner hbody)) (by omega)
  case counting =>
    intro initial condition step body hi hc hs hb
    refine houter (Node.within_counting hw (Nat.succ_pos _) (fun s hs => ?_)
      (fun e he => hinner (hc e he)) (fun e he => hinner (hs e he)) (hinner hb)) (by omega)
    rcases hi s hs with h | h
    · exact (h.within (Nat.le_succ n) hw).mono (Nat.le_refl _) (Nat.le_succ _)
    · exact (h.within (Nat.le_succ n) hw).mono (Nat.le_refl _) (Nat.le_succ _)

end Promise

/-! ## Parsed trees -/

theorem meet_rules_levels (n : Nat) :
    (Grammar.rules n).Meet (fun _ => True) (fun _ => True) (.ofLevels n) :=
  Grammar.meet_rules (front_trivial fun _ => trivial) id (fun n => Promise.builds_ofLevels _ n) n

variable {tokens : List Token}

/-- A declaration adds one more edge to the expression in it. -/
theorem within_parse {s : Stmt} (hs : s ∈ (parse tokens).statements) :
    (Node.stmt s).Within maxNesting (7 * maxNesting + 1) := by
  obtain ⟨hstatements, -⟩ := Grammar.meets_parseWithin (front_trivial fun _ => trivial)
    (meet_rules_levels maxNesting) trivial
  rcases hstatements s hs with h | h
  · exact h.within (Nat.le_refl _) (by decide)
  · exact h.mono (Nat.le_refl _) (Nat.le_succ _)

theorem within_parseExpression {e : Expr} (he : parseExpression tokens = .ok e) :
    (Node.expr e).Within maxNesting (7 * maxNesting) := by
  obtain ⟨hexpression, -⟩ := Grammar.meets_parseExpressionWithin (front_trivial fun _ => trivial)
    (meet_rules_levels maxNesting) trivial
  exact hexpression e he

end Lox
