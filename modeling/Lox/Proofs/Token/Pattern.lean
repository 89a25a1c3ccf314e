import Lox.Token.Segment

/-!
# The patterns of the kinds of token

Every kind of token has a pattern: the set of texts that are lexemes of that kind.  The
patterns are stated without the scanner, and this file proves how the two meet.

* `Kind.Matches` — the pattern of each kind.
* `Kind.EndsAt` — the texts that do not go on with a lexeme of the kind.
* `first_of_matches` — a lexeme followed by a text that does not go on with it is cut
  off whole.
* `matches_of_first` — whatever is cut off is a lexeme of the kind it is given.
* `lines_of_matches` — by its kind alone, a lexeme moves on by the line breaks in it.
-/

namespace Lox

/-! ## Patterns -/

/-- One decimal digit or more. -/
def Digits (w : List Char) : Prop := w ≠ [] ∧ ∀ c ∈ w, c.isDigit

namespace Kind

/-- The pattern of a kind.  A kind that is not listed has its words as its only lexeme;
the end of input has none. -/
def Matches : Kind → List Char → Prop
  | identifier, w =>
    ∃ c cs, w = c :: cs ∧ (c.isAlpha ∨ c = '_') ∧ ∀ d ∈ cs, d.isAlphanum ∨ d = '_'
  | string, w => ∃ body, w = '"' :: body ++ ['"'] ∧ '"' ∉ body
  | number, w =>
    Digits w ∨ ∃ whole part, w = whole ++ '.' :: part ∧ Digits whole ∧ Digits part
  | unterminated, w => ∃ body, w = '"' :: body ∧ '"' ∉ body
  | comment, w => ∃ body, w = '/' :: '/' :: body ∧ '\n' ∉ body
  | newline, w => w = ['\n']
  | blank, w => w ≠ [] ∧ ∀ c ∈ w, c = ' ' ∨ c = '\t' ∨ c = '\r'
  | eof, _ => False
  | kind, w => w = kind.text.toList

/-- The kinds that are written in one way only and are not words. -/
def symbols : List Kind :=
  [leftParen, rightParen, leftBrace, rightBrace, comma, dot, minus, plus, semicolon, slash,
    star, bang, bangEqual, equal, equalEqual, greater, greaterEqual, less, lessEqual]

/-- A text that begins with no character of a class. -/
def Stops (p : Char → Bool) (rest : List Char) : Prop := ∀ c ∈ rest.head?, p c = false

/-- The characters with which a lexeme of the kind may go on. -/
def goesOn (kind : Kind) : Char → Bool :=
  if kind = identifier ∨ kind ∈ reserved then Segment.isWordChar
  else match kind with
    | number => Char.isDigit
    | unterminated => fun _ => true
    | comment => (· != '\n')
    | blank => Segment.isBlank
    | slash => (· == '/')
    | bang | equal | greater | less => (· == '=')
    | _ => fun _ => false

/-- The text does not go on with a lexeme of the kind.  A numeral goes on with a point
only if a digit follows the point. -/
def EndsAt (kind : Kind) (rest : List Char) : Prop :=
  Stops kind.goesOn rest ∧
    (kind = number → ∀ d ds, rest = '.' :: d :: ds → d.isDigit = false)

/-- The kind given to a lexeme: a reserved word is no identifier. -/
def settle (w : List Char) (kind : Kind) : Kind :=
  if kind = identifier then ofWord (String.ofList w) else kind

@[simp] theorem stops_nil (p : Char → Bool) : Stops p [] := by
  simp [Stops]

theorem goesOn_word {kind : Kind} (h : kind = identifier ∨ kind ∈ reserved) :
    kind.goesOn = Segment.isWordChar :=
  if_pos h

theorem endsAt_nil (kind : Kind) : kind.EndsAt [] := by
  simp [EndsAt]

/-! ## Words -/

theorem ofWord_cases (w : String) :
    (ofWord w = identifier ∧ ∀ k ∈ reserved, k.text ≠ w) ∨
      (ofWord w ∈ reserved ∧ (ofWord w).text = w) := by
  unfold ofWord
  cases h : reserved.find? fun k => k.text == w with
  | none =>
    refine Or.inl ⟨rfl, ?_⟩
    intro k hk
    simpa using List.find?_eq_none.1 h k hk
  | some k =>
    refine Or.inr ⟨List.mem_of_find?_eq_some h, ?_⟩
    simpa using List.find?_some h

theorem ofWord_text {kind : Kind} (h : kind ∈ reserved) : ofWord kind.text = kind := by
  revert kind
  decide

@[simp] theorem identifier_matches_cons {c : Char} {cs : List Char} :
    identifier.Matches (c :: cs) ↔
      Segment.isWordStart c ∧ ∀ d ∈ cs, Segment.isWordChar d := by
  simp only [Matches, Segment.isWordStart, Segment.isWordChar, Bool.or_eq_true, beq_iff_eq]
  constructor
  · rintro ⟨d, ds, hw, hd, hds⟩
    cases hw
    exact ⟨hd, hds⟩
  · rintro ⟨hc, hcs⟩
    exact ⟨c, cs, rfl, hc, hcs⟩

theorem identifier_matches_text {kind : Kind} (h : kind ∈ reserved) :
    identifier.Matches kind.text.toList := by
  have hall : ∀ k ∈ reserved, k.text.toList.head?.any Segment.isWordStart ∧
      k.text.toList.tail.all Segment.isWordChar := by decide
  have hkind := hall kind h
  cases hw : kind.text.toList with
  | nil => simp [hw] at hkind
  | cons c cs =>
    rw [identifier_matches_cons]
    simpa [hw] using hkind

theorem matches_of_mem_reserved {kind : Kind} {w : List Char} (h : kind ∈ reserved) :
    kind.Matches w ↔ w = kind.text.toList := by
  simp only [reserved, List.mem_cons, List.not_mem_nil, or_false] at h
  rcases h with rfl | rfl | rfl | rfl | rfl | rfl | rfl | rfl | rfl | rfl | rfl | rfl | rfl |
    rfl | rfl | rfl <;> exact Iff.rfl

theorem matches_of_mem_symbols {kind : Kind} {w : List Char} (h : kind ∈ symbols) :
    kind.Matches w ↔ w = kind.text.toList := by
  simp only [symbols, List.mem_cons, List.not_mem_nil, or_false] at h
  rcases h with rfl | rfl | rfl | rfl | rfl | rfl | rfl | rfl | rfl | rfl | rfl | rfl | rfl |
    rfl | rfl | rfl | rfl | rfl | rfl <;> exact Iff.rfl

/-! ## Lexemes by their first character -/

theorem digits_cons {c : Char} {cs : List Char} :
    Digits (c :: cs) ↔ c.isDigit ∧ ∀ d ∈ cs, d.isDigit := by
  simp [Digits]

/-- A numeral is a digit and further digits, or these with a point and digits after it. -/
theorem number_matches_cons {c : Char} {cs : List Char} :
    number.Matches (c :: cs) ↔ c.isDigit ∧ ((∀ d ∈ cs, d.isDigit) ∨
      ∃ whole d ds, cs = whole ++ '.' :: d :: ds ∧ (∀ e ∈ whole, e.isDigit) ∧ d.isDigit ∧
        ∀ e ∈ ds, e.isDigit) := by
  constructor
  · rintro (h | ⟨whole, part, hw, hwhole, hpart⟩)
    · obtain ⟨hc, hcs⟩ := digits_cons.1 h
      exact ⟨hc, Or.inl hcs⟩
    · obtain ⟨d, ds, rfl⟩ := List.exists_cons_of_ne_nil hpart.1
      cases whole with
      | nil => exact absurd rfl hwhole.1
      | cons c' cs' =>
        rw [List.cons_append] at hw
        obtain ⟨rfl, rfl⟩ := List.cons.inj hw
        obtain ⟨hc, hcs⟩ := digits_cons.1 hwhole
        obtain ⟨hd, hds⟩ := digits_cons.1 hpart
        exact ⟨hc, Or.inr ⟨cs', d, ds, rfl, hcs, hd, hds⟩⟩
  · rintro ⟨hc, hcs | ⟨whole, d, ds, rfl, hwhole, hd, hds⟩⟩
    · exact Or.inl (digits_cons.2 ⟨hc, hcs⟩)
    · exact Or.inr ⟨c :: whole, d :: ds, rfl, digits_cons.2 ⟨hc, hwhole⟩,
        digits_cons.2 ⟨hd, hds⟩⟩

@[simp] theorem blank_matches_cons {c : Char} {cs : List Char} :
    blank.Matches (c :: cs) ↔ Segment.isBlank c ∧ ∀ d ∈ cs, Segment.isBlank d := by
  simp [Matches, Segment.isBlank, or_assoc]

/-- No lexeme is empty. -/
theorem matches_ne_nil {kind : Kind} : ¬ kind.Matches [] := by
  cases kind <;> simp [Matches, Digits, text]

/-! ## Line breaks in lexemes -/

theorem newline_not_mem_digits {w : List Char} (h : Digits w) : '\n' ∉ w :=
  fun hmem => absurd (h.2 _ hmem) (by decide)

/-- Line breaks stand in strings and are lexemes of their own.  No other lexeme holds one. -/
theorem newline_not_mem_of_matches {kind : Kind} {w : List Char} (h : kind.Matches w)
    (hstring : kind ≠ string) (hopen : kind ≠ unterminated) (hnewline : kind ≠ newline) :
    '\n' ∉ w := by
  intro hmem
  cases kind with
  | string => exact hstring rfl
  | unterminated => exact hopen rfl
  | newline => exact hnewline rfl
  | eof => exact h
  | identifier =>
    obtain ⟨c, cs, rfl, hc, hcs⟩ := h
    rcases List.mem_cons.1 hmem with rfl | hmem
    · exact absurd hc (by decide)
    · exact absurd (hcs _ hmem) (by decide)
  | number =>
    rcases h with h | ⟨whole, part, rfl, hwhole, hpart⟩
    · exact newline_not_mem_digits h hmem
    · rcases List.mem_append.1 hmem with hmem | hmem
      · exact newline_not_mem_digits hwhole hmem
      · rcases List.mem_cons.1 hmem with heq | hmem
        · cases heq
        · exact newline_not_mem_digits hpart hmem
  | comment =>
    obtain ⟨body, rfl, hbody⟩ := h
    simp [hbody] at hmem
  | blank => exact absurd (h.2 _ hmem) (by decide)
  | _ =>
    obtain rfl := h
    revert hmem
    decide

/-- A lexeme moves on by the line breaks in it. -/
theorem lines_of_matches {kind : Kind} {w : List Char} (h : kind.Matches w) :
    Segment.lines ⟨some kind, w⟩ = w.count '\n' := by
  by_cases hstring : kind = string
  · rw [hstring]
    rfl
  by_cases hopen : kind = unterminated
  · rw [hopen]
    rfl
  by_cases hnewline : kind = newline
  · subst hnewline
    obtain rfl := h
    rfl
  · rw [List.count_eq_zero.2 (newline_not_mem_of_matches h hstring hopen hnewline)]
    simp [Segment.lines, hstring, hopen, hnewline]

end Kind

namespace Segment

open Kind

/-! ## Runs of characters of a class -/

theorem takeWhile_append_stops {p : Char → Bool} {w rest : List Char} (h : ∀ c ∈ w, p c)
    (hrest : Stops p rest) : (w ++ rest).takeWhile p = w := by
  rw [List.takeWhile_append_of_pos h]
  cases rest with
  | nil => simp
  | cons c cs => simp [hrest c rfl]

theorem dropWhile_append_stops {p : Char → Bool} {w rest : List Char} (h : ∀ c ∈ w, p c)
    (hrest : Stops p rest) : (w ++ rest).dropWhile p = rest := by
  rw [List.dropWhile_append_of_pos h]
  cases rest with
  | nil => simp
  | cons c cs => simp [hrest c rfl]

theorem ne_of_not_mem {c : Char} {body : List Char} (h : c ∉ body) :
    ∀ d ∈ body, (d != c) = true := by
  intro d hd
  simpa using fun heq : d = c => h (heq ▸ hd)

/-! ## A lexeme is cut off whole -/

theorem first_word {c : Char} (h : isWordStart c) (cs : List Char) : first c cs = word c cs := by
  simp [first, h]

theorem isWordStart_of_isDigit {c : Char} (h : c.isDigit) : isWordStart c = false := by
  have hle : c.toNat ≤ 57 := (Char.isDigit_iff_toNat.1 h).2
  -- digits come before the letters and the underscore
  have hbefore : ∀ d : Char, 57 < d.toNat → ¬ d.val ≤ c.val := by
    intro d hd hlow
    have hlow : d.toNat ≤ c.toNat := hlow
    omega
  have hupper : c.isUpper = false := decide_eq_false fun h => hbefore 'A' (by decide) h.1
  have hlower : c.isLower = false := by
    show (decide ('a'.val ≤ c.val) && decide (c.val ≤ 'z'.val)) = false
    rw [decide_eq_false (hbefore 'a' (by decide)), Bool.false_and]
  have hmark : (c == '_') = false := by
    refine beq_eq_false_iff_ne.2 ?_
    rintro rfl
    exact absurd hle (by decide)
  show ((c.isUpper || c.isLower) || c == '_') = false
  rw [hupper, hlower, hmark]
  rfl

theorem first_digit {c : Char} (h : c.isDigit) (cs : List Char) :
    first c cs = numeral c cs := by
  simp [first, h, isWordStart_of_isDigit h]

theorem first_blank {c : Char} (h : isBlank c) (cs : List Char) :
    first c cs = run .blank isBlank c cs := by
  simp only [isBlank, Bool.or_eq_true, beq_iff_eq, or_assoc] at h
  rcases h with rfl | rfl | rfl <;> rfl

theorem first_identifier {c : Char} {cs rest : List Char} (h : identifier.Matches (c :: cs))
    (hrest : Stops isWordChar rest) :
    first c (cs ++ rest) = (⟨some (ofWord (String.ofList (c :: cs))), c :: cs⟩, rest) := by
  obtain ⟨hc, hcs⟩ := identifier_matches_cons.1 h
  rw [first_word hc, word, takeWhile_append_stops hcs hrest, dropWhile_append_stops hcs hrest]

theorem first_reserved {kind : Kind} {c : Char} {cs rest : List Char} (hk : kind ∈ reserved)
    (h : kind.Matches (c :: cs)) (hrest : Stops isWordChar rest) :
    first c (cs ++ rest) = (⟨some kind, c :: cs⟩, rest) := by
  have htext : c :: cs = kind.text.toList := (matches_of_mem_reserved hk).1 h
  have hword : identifier.Matches (c :: cs) := htext ▸ identifier_matches_text hk
  rw [first_identifier hword hrest, htext, String.ofList_toList, ofWord_text hk]

theorem first_number {c : Char} {cs rest : List Char} (h : number.Matches (c :: cs))
    (hrest : number.EndsAt rest) :
    first c (cs ++ rest) = (⟨some number, c :: cs⟩, rest) := by
  obtain ⟨hstop, hpoint⟩ : Stops Char.isDigit rest ∧ _ := hrest
  obtain ⟨hc, hcs | ⟨whole, d, ds, rfl, hwhole, hd, hds⟩⟩ := number_matches_cons.1 h
  · rw [first_digit hc, numeral]
    simp only [takeWhile_append_stops hcs hstop, dropWhile_append_stops hcs hstop]
    split
    next d ds => simp [hpoint rfl d ds rfl]
    next => rfl
  · have hdot : Stops Char.isDigit ('.' :: d :: (ds ++ rest)) := by simp [Stops]
    rw [first_digit hc, numeral]
    simp only [List.append_assoc, List.cons_append, takeWhile_append_stops hwhole hdot,
      dropWhile_append_stops hwhole hdot, if_pos hd, takeWhile_append_stops hds hstop,
      dropWhile_append_stops hds hstop]

theorem first_string {c : Char} {cs rest : List Char} (h : string.Matches (c :: cs)) :
    first c (cs ++ rest) = (⟨some string, c :: cs⟩, rest) := by
  obtain ⟨body, hw, hbody⟩ := h
  obtain ⟨rfl, rfl⟩ := List.cons.inj hw
  have hall := ne_of_not_mem hbody
  have hstop : Stops (· != '"') ('"' :: rest) := by simp [Stops]
  show quoted '"' (body ++ ['"'] ++ rest) = _
  rw [List.append_assoc, List.singleton_append, quoted]
  simp [takeWhile_append_stops hall hstop, dropWhile_append_stops hall hstop]

theorem first_unterminated {c : Char} {cs : List Char} (h : unterminated.Matches (c :: cs)) :
    first c cs = (⟨some unterminated, c :: cs⟩, []) := by
  obtain ⟨body, hw, hbody⟩ := h
  obtain ⟨rfl, rfl⟩ := List.cons.inj hw
  have hall := ne_of_not_mem hbody
  have htake := takeWhile_append_stops hall (stops_nil _)
  have hdrop := dropWhile_append_stops hall (stops_nil _)
  rw [List.append_nil] at htake hdrop
  show quoted '"' cs = _
  rw [quoted, htake, hdrop]

theorem first_comment {c : Char} {cs rest : List Char} (h : comment.Matches (c :: cs))
    (hrest : Stops (· != '\n') rest) :
    first c (cs ++ rest) = (⟨some comment, c :: cs⟩, rest) := by
  obtain ⟨body, hw, hbody⟩ := h
  obtain ⟨rfl, rfl⟩ := List.cons.inj hw
  have hall := ne_of_not_mem hbody
  show slash '/' ('/' :: (body ++ rest)) = _
  rw [slash, takeWhile_append_stops hall hrest, dropWhile_append_stops hall hrest]

theorem first_blanks {c : Char} {cs rest : List Char} (h : blank.Matches (c :: cs))
    (hrest : Stops isBlank rest) :
    first c (cs ++ rest) = (⟨some blank, c :: cs⟩, rest) := by
  obtain ⟨hc, hcs⟩ := blank_matches_cons.1 h
  rw [first_blank hc, run, takeWhile_append_stops hcs hrest,
    dropWhile_append_stops hcs hrest]

theorem orEqual_of_stops {short long : Kind} {c : Char} {rest : List Char}
    (hrest : Stops (· == '=') rest) :
    orEqual short long c rest = (⟨some short, [c]⟩, rest) := by
  unfold orEqual
  split
  next cs => simp [Stops] at hrest
  next => rfl

theorem slash_of_stops {c : Char} {rest : List Char} (hrest : Stops (· == '/') rest) :
    slash c rest = (⟨some .slash, [c]⟩, rest) := by
  unfold slash
  split
  next cs => simp [Stops] at hrest
  next => rfl

theorem first_symbol {kind : Kind} {c : Char} {cs rest : List Char} (hk : kind ∈ symbols)
    (h : kind.Matches (c :: cs)) (hrest : kind.EndsAt rest) :
    first c (cs ++ rest) = (⟨some kind, c :: cs⟩, rest) := by
  have htext : c :: cs = kind.text.toList := (matches_of_mem_symbols hk).1 h
  simp only [symbols, List.mem_cons, List.not_mem_nil, or_false] at hk
  rcases hk with rfl | rfl | rfl | rfl | rfl | rfl | rfl | rfl | rfl | rfl | rfl | rfl | rfl |
    rfl | rfl | rfl | rfl | rfl | rfl <;> simp [Kind.text] at htext <;>
    obtain ⟨rfl, rfl⟩ := htext <;>
    first
    | rfl
    | exact orEqual_of_stops hrest.1
    | exact slash_of_stops hrest.1

/-- A lexeme followed by a text that does not go on with it is the first segment. -/
theorem first_of_matches {kind : Kind} {c : Char} {cs rest : List Char}
    (h : kind.Matches (c :: cs)) (hrest : kind.EndsAt rest) :
    first c (cs ++ rest) = (⟨some (settle (c :: cs) kind), c :: cs⟩, rest) := by
  obtain ⟨hstop, hpoint⟩ := hrest
  by_cases hid : kind = identifier
  · subst hid
    exact first_identifier h hstop
  have hsettle : settle (c :: cs) kind = kind := if_neg hid
  rw [hsettle]
  by_cases hr : kind ∈ reserved
  · rw [goesOn_word (Or.inr hr)] at hstop
    exact first_reserved hr h hstop
  by_cases hs : kind ∈ symbols
  · exact first_symbol hs h ⟨hstop, hpoint⟩
  cases kind with
  | string => exact first_string h
  | number => exact first_number h ⟨hstop, hpoint⟩
  | unterminated =>
    cases rest with
    | nil => rw [List.append_nil, first_unterminated h]
    | cons d ds =>
      have hgoes : unterminated.goesOn d = false := hstop d rfl
      simp [goesOn, reserved] at hgoes
  | comment => exact first_comment h hstop
  | newline =>
    obtain ⟨rfl, rfl⟩ := List.cons.inj h
    rfl
  | blank => exact first_blanks h hstop
  | eof => exact h.elim
  | identifier => exact absurd rfl hid
  | _ => first | exact absurd (by decide) hr | exact absurd (by decide) hs

/-! ## What is cut off is a lexeme -/

theorem all_takeWhile (p : Char → Bool) (cs : List Char) : ∀ d ∈ cs.takeWhile p, p d :=
  List.all_eq_true.1 List.all_takeWhile

theorem not_mem_takeWhile_ne (c : Char) (cs : List Char) : c ∉ cs.takeWhile (· != c) := by
  intro hc
  simpa using all_takeWhile (· != c) cs c hc

theorem matches_word {c : Char} (h : isWordStart c) (cs : List Char) :
    ∃ k, (word c cs).1.kind? = some k ∧ k.Matches (word c cs).1.text := by
  refine ⟨_, rfl, ?_⟩
  show (ofWord (String.ofList (c :: cs.takeWhile isWordChar))).Matches
    (c :: cs.takeWhile isWordChar)
  rcases ofWord_cases (String.ofList (c :: cs.takeWhile isWordChar)) with ⟨hk, -⟩ | ⟨hk, htext⟩
  · rw [hk, identifier_matches_cons]
    exact ⟨h, all_takeWhile isWordChar cs⟩
  · rw [matches_of_mem_reserved hk, htext, String.toList_ofList]

theorem matches_numeral {c : Char} (h : c.isDigit) (cs : List Char) :
    ∃ k, (numeral c cs).1.kind? = some k ∧ k.Matches (numeral c cs).1.text := by
  have hwhole := digits_cons.2 ⟨h, all_takeWhile Char.isDigit cs⟩
  unfold numeral
  split
  next d rest heq =>
    split
    next hd =>
      have hpart := digits_cons.2 ⟨hd, all_takeWhile Char.isDigit rest⟩
      exact ⟨number, rfl, Or.inr ⟨_, _, rfl, hwhole, hpart⟩⟩
    next => exact ⟨number, rfl, Or.inl hwhole⟩
  next => exact ⟨number, rfl, Or.inl hwhole⟩

theorem matches_quoted (cs : List Char) :
    ∃ k, (quoted '"' cs).1.kind? = some k ∧ k.Matches (quoted '"' cs).1.text := by
  have hbody : '"' ∉ cs.takeWhile (· != '"') := not_mem_takeWhile_ne '"' cs
  unfold quoted
  split
  next q rest heq =>
    have hq : q = '"' := by
      have hhead := List.head?_dropWhile_not (· != '"') cs
      rw [heq] at hhead
      simpa using hhead
    subst hq
    exact ⟨string, rfl, _, rfl, hbody⟩
  next => exact ⟨unterminated, rfl, _, rfl, hbody⟩

theorem matches_slash (cs : List Char) :
    ∃ k, (slash '/' cs).1.kind? = some k ∧ k.Matches (slash '/' cs).1.text := by
  unfold slash
  split
  next cs => exact ⟨comment, rfl, _, rfl, not_mem_takeWhile_ne '\n' cs⟩
  next => exact ⟨.slash, rfl, rfl⟩

theorem matches_orEqual {short long : Kind} {c : Char} (cs : List Char)
    (hshort : short.Matches [c]) (hlong : long.Matches [c, '=']) :
    ∃ k, (orEqual short long c cs).1.kind? = some k ∧
      k.Matches (orEqual short long c cs).1.text := by
  unfold orEqual
  split
  · exact ⟨long, rfl, hlong⟩
  · exact ⟨short, rfl, hshort⟩

/-- The first segment is a lexeme of its kind, or a single character without a kind. -/
theorem matches_of_first (c : Char) (cs : List Char) :
    (∃ k, (first c cs).1.kind? = some k ∧ k.Matches (first c cs).1.text) ∨
      (first c cs).1 = ⟨none, [c]⟩ := by
  unfold first
  split
  next h => exact Or.inl (matches_word h cs)
  split
  next h => exact Or.inl (matches_numeral h cs)
  split
  next h => exact Or.inl ⟨blank, rfl, blank_matches_cons.2 ⟨h, all_takeWhile isBlank cs⟩⟩
  split
  case h_2 => exact Or.inl (matches_quoted cs)
  case h_3 => exact Or.inl (matches_slash cs)
  all_goals
    first
    | exact Or.inr rfl
    | exact Or.inl ⟨_, rfl, rfl⟩
    | exact Or.inl (matches_orEqual cs rfl rfl)

end Segment
end Lox
