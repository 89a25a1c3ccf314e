import Lox.Proofs.Token.Pattern
import Lox.Token.Scan

/-!
# Longest match

At every position of a source text the scanner takes the longest lexeme that any pattern
offers there, and a reserved word before an identifier of the same length.

* `Segment.Munches` — longest match at the start of a text, stated with the patterns.
* `Token.Proper` — what every token of a source text satisfies.
* `first_munches` — one step: the first segment is the longest match.
* `lines_of_mem_segments` — every segment moves on by the line breaks in it.
* `scan_munches` — a whole text: the segments make up the text, each one is the longest
  match where it stands, and tokens and errors are the segments with their lines.
-/

namespace Lox

/-- A token as it comes from a source text: its lexeme is one of its kind, which is
settled, and it has the literal of its lexeme. -/
structure Token.Proper (t : Token) : Prop where
  matches_lexeme : t.kind.Matches t.lexeme.toList
  settled : Kind.settle t.lexeme.toList t.kind = t.kind
  literal_eq : t.literal = Scan.literalOf t.kind t.lexeme.toList

namespace Segment

open Kind

/-! ## Longest match at one position -/

/-- The segment is what longest match takes from the start of a text: the longest lexeme
that a pattern offers, a reserved word before an identifier, or else a single character
at which no pattern offers one. -/
def Munches (s : Segment) (input : List Char) : Prop :=
  s.text <+: input ∧
    match s.kind? with
    | some kind =>
      kind.Matches s.text ∧
      (∀ (k : Kind) w, k.Matches w → w <+: input → w.length ≤ s.text.length) ∧
      ∀ k : Kind, k.Matches s.text → k = kind ∨ k = identifier ∧ kind ∈ reserved
    | none => s.text.length = 1 ∧ ∀ (k : Kind) w, k.Matches w → ¬ w <+: input

theorem digits_prefix_numeral (c : Char) (cs : List Char) :
    c :: cs.takeWhile Char.isDigit <+: (numeral c cs).1.text := by
  unfold numeral
  split
  · split
    · exact List.prefix_append _ _
    · exact List.prefix_rfl
  · exact List.prefix_rfl

theorem contents_prefix_quoted (c : Char) (cs : List Char) :
    c :: cs.takeWhile (· != '"') <+: (quoted c cs).1.text := by
  unfold quoted
  split
  · exact List.prefix_append _ _
  · exact List.prefix_rfl

/-- Whatever follows, a lexeme made of a character and a run of a class is not longer than
the character with the whole run. -/
theorem length_le_run {p : Char → Bool} {c : Char} {cs rest w : List Char}
    (h : ∀ d ∈ cs, p d) (hw : c :: (cs ++ rest).takeWhile p <+: w) :
    (c :: cs).length ≤ w.length := by
  have hlen := hw.length_le
  rw [List.takeWhile_append_of_pos h] at hlen
  simp only [List.length_cons, List.length_append] at hlen ⊢
  omega

theorem length_le_word {c : Char} {cs : List Char} (rest : List Char)
    (h : identifier.Matches (c :: cs)) :
    (c :: cs).length ≤ (first c (cs ++ rest)).1.text.length := by
  obtain ⟨hc, hcs⟩ := identifier_matches_cons.1 h
  rw [first_word hc]
  exact length_le_run hcs List.prefix_rfl

theorem length_le_numeral {c : Char} {cs : List Char} (rest : List Char)
    (h : number.Matches (c :: cs)) :
    (c :: cs).length ≤ (first c (cs ++ rest)).1.text.length := by
  obtain ⟨hc, hcs | ⟨whole, d, ds, rfl, hwhole, hd, hds⟩⟩ := number_matches_cons.1 h
  · rw [first_digit hc]
    exact length_le_run hcs (digits_prefix_numeral c (cs ++ rest))
  · have hdot : Stops Char.isDigit ('.' :: d :: (ds ++ rest)) := by simp [Stops]
    rw [first_digit hc, numeral]
    simp only [List.append_assoc, List.cons_append, takeWhile_append_stops hwhole hdot,
      dropWhile_append_stops hwhole hdot, if_pos hd, List.takeWhile_append_of_pos hds,
      List.length_cons, List.length_append]
    omega

theorem length_le_unterminated {c : Char} {cs : List Char} (rest : List Char)
    (h : unterminated.Matches (c :: cs)) :
    (c :: cs).length ≤ (first c (cs ++ rest)).1.text.length := by
  obtain ⟨body, hw, hbody⟩ := h
  obtain ⟨rfl, rfl⟩ := List.cons.inj hw
  exact length_le_run (ne_of_not_mem hbody) (contents_prefix_quoted '"' (cs ++ rest))

theorem length_le_comment {c : Char} {cs : List Char} (rest : List Char)
    (h : comment.Matches (c :: cs)) :
    (c :: cs).length ≤ (first c (cs ++ rest)).1.text.length := by
  obtain ⟨body, hw, hbody⟩ := h
  obtain ⟨rfl, rfl⟩ := List.cons.inj hw
  have hrun : ('/' :: body).length ≤ ('/' :: (body ++ rest).takeWhile (· != '\n')).length :=
    length_le_run (ne_of_not_mem hbody) List.prefix_rfl
  show _ ≤ (slash '/' ('/' :: (body ++ rest))).1.text.length
  simp only [slash, List.length_cons] at hrun ⊢
  omega

theorem length_le_blanks {c : Char} {cs : List Char} (rest : List Char)
    (h : blank.Matches (c :: cs)) :
    (c :: cs).length ≤ (first c (cs ++ rest)).1.text.length := by
  obtain ⟨hc, hcs⟩ := blank_matches_cons.1 h
  rw [first_blank hc]
  exact length_le_run hcs List.prefix_rfl

theorem length_le_symbol {kind : Kind} {c : Char} {cs : List Char} (rest : List Char)
    (hk : kind ∈ symbols) (h : kind.Matches (c :: cs)) :
    (c :: cs).length ≤ (first c (cs ++ rest)).1.text.length := by
  have htext : c :: cs = kind.text.toList := (matches_of_mem_symbols hk).1 h
  have hcases : ∀ k ∈ symbols, k.text.toList.length = 1 ∨
      k ∈ [bangEqual, equalEqual, greaterEqual, lessEqual] := by decide
  rcases hcases kind hk with hone | htwo
  · rw [htext, hone]
    exact List.length_pos_iff.2 (first_text_ne_nil c (cs ++ rest))
  · -- no lexeme goes on after its equals sign
    have hends : kind.EndsAt rest := by
      simp only [List.mem_cons, List.not_mem_nil, or_false] at htwo
      rcases htwo with rfl | rfl | rfl | rfl <;> exact ⟨fun _ _ => rfl, fun h => by cases h⟩
    exact Nat.le_of_eq (by rw [first_symbol hk h hends])

/-- No pattern offers a longer lexeme than the first segment. -/
theorem length_le_first {kind : Kind} {c : Char} {cs : List Char} (rest : List Char)
    (h : kind.Matches (c :: cs)) :
    (c :: cs).length ≤ (first c (cs ++ rest)).1.text.length := by
  by_cases hr : kind ∈ reserved
  · exact length_le_word rest ((matches_of_mem_reserved hr).1 h ▸ identifier_matches_text hr)
  by_cases hs : kind ∈ symbols
  · exact length_le_symbol rest hs h
  cases kind with
  | identifier => exact length_le_word rest h
  | string =>
    exact Nat.le_of_eq (by rw [first_string h])
  | number => exact length_le_numeral rest h
  | unterminated => exact length_le_unterminated rest h
  | comment => exact length_le_comment rest h
  | newline =>
    obtain ⟨rfl, rfl⟩ := List.cons.inj h
    exact Nat.le_refl 1
  | blank => exact length_le_blanks rest h
  | eof => exact h.elim
  | _ => first | exact absurd (by decide) hr | exact absurd (by decide) hs

/-- Whether a character begins a token does not depend on what follows it. -/
theorem first_of_kind?_none {c : Char} {cs : List Char} (h : (first c cs).1.kind? = none)
    (ds : List Char) : first c ds = (⟨none, [c]⟩, ds) := by
  have hword : ¬ isWordStart c := by
    intro hc
    rw [first_word hc] at h
    cases h
  have hdigit : ¬ c.isDigit := by
    intro hc
    obtain ⟨k, hk, -⟩ := matches_numeral hc cs
    rw [first_digit hc, hk] at h
    cases h
  have hblank : ¬ isBlank c := by
    intro hc
    rw [first_blank hc] at h
    cases h
  unfold first at h ⊢
  rw [if_neg hword, if_neg hdigit, if_neg hblank] at h ⊢
  split at h
  case h_2 =>
    obtain ⟨k, hk, -⟩ := matches_quoted cs
    rw [hk] at h
    cases h
  case h_3 =>
    obtain ⟨k, hk, -⟩ := matches_slash cs
    rw [hk] at h
    cases h
  case h_18 => rfl
  all_goals first | cases h | (unfold orEqual at h; split at h <;> cases h)

/-- Two kinds that share a lexeme are given the same kind. -/
theorem settle_eq_of_matches {k k' : Kind} {w : List Char} (h : k.Matches w)
    (h' : k'.Matches w) : settle w k = settle w k' := by
  cases w with
  | nil => exact absurd h matches_ne_nil
  | cons c cs =>
    have hk := first_of_matches h (endsAt_nil k)
    have hk' := first_of_matches h' (endsAt_nil k')
    rw [hk] at hk'
    simpa using hk'

/-- The kind of the first segment is settled: it is no identifier if it is reserved. -/
theorem settle_first {kind : Kind} {c : Char} {cs : List Char}
    (hk : (first c cs).1.kind? = some kind) (hm : kind.Matches (first c cs).1.text) :
    settle (first c cs).1.text kind = kind := by
  by_cases hid : kind = identifier
  · subst hid
    have hc : isWordStart c := by
      have happ := first_append c cs
      cases htext : (first c cs).1.text with
      | nil => exact absurd htext (first_text_ne_nil c cs)
      | cons d ds =>
        rw [htext] at happ hm
        obtain ⟨rfl, -⟩ := List.cons.inj happ
        exact (identifier_matches_cons.1 hm).1
    rw [first_word hc] at hk ⊢
    exact Option.some.inj hk
  · exact if_neg hid

/-- The first segment of a text is its longest match. -/
theorem first_munches (c : Char) (cs : List Char) : (first c cs).1.Munches (c :: cs) := by
  have hlongest : ∀ (k : Kind) w, k.Matches w → w <+: c :: cs →
      w.length ≤ (first c cs).1.text.length := by
    rintro k w hw ⟨rest, hrest⟩
    cases w with
    | nil => exact absurd hw matches_ne_nil
    | cons d ds =>
      obtain ⟨rfl, rfl⟩ := List.cons.inj hrest
      exact length_le_first rest hw
  refine ⟨⟨_, first_append c cs⟩, ?_⟩
  rcases matches_of_first c cs with ⟨kind, hk, hm⟩ | hnone
  · rw [hk]
    refine ⟨hm, hlongest, ?_⟩
    intro k hkm
    have hsettle : settle (first c cs).1.text k = kind :=
      (settle_eq_of_matches hkm hm).trans (settle_first hk hm)
    by_cases hid : k = identifier
    · subst hid
      rcases ofWord_cases (String.ofList (first c cs).1.text) with ⟨hword, -⟩ | ⟨hword, -⟩
      · exact Or.inl (hword.symm.trans hsettle)
      · exact Or.inr ⟨rfl, hsettle ▸ hword⟩
    · exact Or.inl ((if_neg hid).symm.trans hsettle)
  · rw [hnone]
    refine ⟨rfl, ?_⟩
    rintro k w hw ⟨rest, hrest⟩
    cases w with
    | nil => exact absurd hw matches_ne_nil
    | cons d ds =>
      -- alone, the lexeme would be cut off with a kind
      have hcut := first_of_matches hw (endsAt_nil k)
      obtain ⟨rfl, rfl⟩ := List.cons.inj hrest
      rw [first_of_kind?_none (by rw [hnone])] at hcut
      cases hcut

/-! ## All positions -/

theorem Munches.text_ne_nil {s : Segment} {input : List Char} (h : s.Munches input) :
    s.text ≠ [] := by
  intro hnil
  obtain ⟨-, h⟩ := h
  split at h
  · rw [hnil] at h
    exact matches_ne_nil h.1
  · rw [hnil] at h
    exact absurd h.1 (by decide)

/-- Every segment of a text is the longest match where it stands. -/
theorem segments_munch {text : List Char} : ∀ {before after : List Segment} {s : Segment},
    segments text = before ++ s :: after →
      s.Munches (s.text ++ after.flatMap Segment.text) := by
  fun_induction segments text with
  | case1 => simp
  | case2 c cs ih =>
    intro before after s h
    cases before with
    | nil =>
      obtain ⟨rfl, rfl⟩ := List.cons.inj h
      rw [flatMap_text_segments, first_append]
      exact first_munches c cs
    | cons b before => exact ih (List.cons.inj h).2

/-- Longest match takes an unterminated string up to the end of the text. -/
theorem Munches.eq_nil_of_unterminated {s : Segment} {rest : List Char}
    (h : s.Munches (s.text ++ rest)) (hk : s.kind? = some unterminated) : rest = [] := by
  obtain ⟨-, h⟩ := h
  rw [hk] at h
  obtain ⟨⟨body, htext, hbody⟩, hlongest, -⟩ := h
  cases rest with
  | nil => rfl
  | cons d ds =>
    -- one character more makes a longer lexeme: a string, or again an unterminated one
    have hlonger : ∃ k : Kind, k.Matches (s.text ++ [d]) := by
      by_cases hd : d = '"'
      · exact ⟨string, body, by rw [htext, hd], hbody⟩
      · refine ⟨unterminated, body ++ [d], by rw [htext]; rfl, ?_⟩
        simpa [hbody] using Ne.symm hd
    obtain ⟨k, hmatch⟩ := hlonger
    have hle := hlongest k _ hmatch ⟨ds, by simp⟩
    rw [List.length_append, List.length_singleton] at hle
    omega

theorem eq_nil_of_unterminated {text : List Char} {before after : List Segment} {s : Segment}
    (h : segments text = before ++ s :: after) (hk : s.kind? = some unterminated) :
    after = [] := by
  have hrest := (segments_munch h).eq_nil_of_unterminated hk
  cases after with
  | nil => rfl
  | cons s' after' =>
    rw [List.append_cons] at h
    have hne := (segments_munch h).text_ne_nil
    exact absurd (List.append_eq_nil_iff.1 hrest).1 hne

/-! ## Tokens, errors and their lines -/

/-- What longest match takes moves on by the line breaks in it.  A character that belongs to
no token is no line break, which has a pattern. -/
theorem Munches.lines_eq {s : Segment} {input : List Char} (h : s.Munches input) :
    s.lines = s.text.count '\n' := by
  obtain ⟨kind?, text⟩ := s
  obtain ⟨hstart, h⟩ := h
  cases kind? with
  | some kind => exact lines_of_matches h.1
  | none =>
    obtain ⟨hone, hnone⟩ := h
    obtain ⟨c, rfl⟩ := List.length_eq_one_iff.1 hone
    have hc : c ≠ '\n' := by
      rintro rfl
      exact hnone newline _ rfl hstart
    simp [lines, hc]

theorem lines_of_mem_segments {text : List Char} {s : Segment} (h : s ∈ segments text) :
    s.lines = s.text.count '\n' := by
  obtain ⟨before, after, hsegs⟩ := List.append_of_mem h
  exact (segments_munch hsegs).lines_eq

/-- The line on which the segment at an index ends, if the first one begins on `line`:
one more for every line break up to the end of the segment. -/
def endLine (line : Nat) (segs : List Segment) (i : Nat) : Nat :=
  line + ((segs.take (i + 1)).flatMap Segment.text).count '\n'

/-- What the segments stand for, each with the line on which it ends. -/
def located {α : Type} (f : Segment → Nat → Option α) (line : Nat) (segs : List Segment) :
    List α :=
  (segs.mapIdx fun i s => f s (endLine line segs i)).filterMap id

/-- The token that a segment stands for: none for layout and for errors. -/
def token? (s : Segment) (line : Nat) : Option Token :=
  match s.kind? with
  | some kind =>
    if kind.isLayout ∨ kind = unterminated then none
    else some ⟨kind, line, String.ofList s.text, Scan.literalOf kind s.text⟩
  | none => none

/-- The error that a segment stands for. -/
def error? (s : Segment) (line : Nat) : Option LexicalError :=
  match s.kind? with
  | some kind => if kind = unterminated then some (.unterminated line) else none
  | none => s.text.head?.map fun c => .unexpected c line

theorem located_cons {α : Type} (f : Segment → Nat → Option α) (line : Nat) (s : Segment)
    (segs : List Segment) :
    located f line (s :: segs) =
      (f s (line + s.text.count '\n')).toList ++ located f (line + s.text.count '\n') segs := by
  have hnext : ∀ i, endLine line (s :: segs) (i + 1) =
      endLine (line + s.text.count '\n') segs i := by
    intro i
    simp [endLine, List.count_append, Nat.add_assoc]
  have hfirst : endLine line (s :: segs) 0 = line + s.text.count '\n' := by simp [endLine]
  simp only [located, List.mapIdx_cons, hnext, hfirst]
  cases f s (line + s.text.count '\n') <;> simp

theorem tokens_add (line : Nat) (s : Segment) (rest : Scan) :
    (Scan.add line s rest).tokens = (s.token? line).toList ++ rest.tokens := by
  unfold Scan.add token?
  split
  next h => simp [h]
  next h => simp [h]
  next kind hne h =>
    by_cases hl : kind.isLayout
    · simp [h, hl]
    · simp [h, hl, show kind ≠ unterminated from hne]

theorem errors_add {line : Nat} {s : Segment} {rest : Scan}
    (hone : s.kind? = none → s.text.length = 1) :
    (Scan.add line s rest).errors = (s.error? line).toList ++ rest.errors := by
  unfold Scan.add error?
  split
  next h =>
    obtain ⟨c, hc⟩ := List.length_eq_one_iff.1 (hone h)
    simp [h, hc]
  next h => simp [h]
  next kind hne h =>
    by_cases hl : kind.isLayout
    · simp [h, hl, show kind ≠ unterminated from hne]
    · simp [h, hl, show kind ≠ unterminated from hne]

theorem tokens_ofSegments (line : Nat) {segs : List Segment}
    (hlines : ∀ s ∈ segs, s.lines = s.text.count '\n') :
    (Scan.ofSegments line segs).tokens =
      located token? line segs ++ [Token.eof (line + (segs.flatMap Segment.text).count '\n')] := by
  induction segs generalizing line with
  | nil => rfl
  | cons s segs ih =>
    obtain ⟨hs, hsegs⟩ := List.forall_mem_cons.1 hlines
    rw [Scan.ofSegments, tokens_add, hs, ih _ hsegs, located_cons]
    simp [List.count_append, Nat.add_assoc]

theorem errors_ofSegments (line : Nat) {segs : List Segment}
    (hlines : ∀ s ∈ segs, s.lines = s.text.count '\n')
    (hone : ∀ s ∈ segs, s.kind? = none → s.text.length = 1) :
    (Scan.ofSegments line segs).errors = located error? line segs := by
  induction segs generalizing line with
  | nil => rfl
  | cons s segs ih =>
    obtain ⟨hs, hsegs⟩ := List.forall_mem_cons.1 hlines
    obtain ⟨hs', hsegs'⟩ := List.forall_mem_cons.1 hone
    rw [Scan.ofSegments, errors_add hs', hs, ih _ hsegs hsegs', located_cons]

theorem mem_located {α : Type} {f : Segment → Nat → Option α} {line : Nat}
    {segs : List Segment} {a : α} (h : a ∈ located f line segs) :
    ∃ s ∈ segs, ∃ n, f s n = some a := by
  induction segs generalizing line with
  | nil => simp [located] at h
  | cons s segs ih =>
    rw [located_cons, List.mem_append, Option.mem_toList] at h
    rcases h with h | h
    · exact ⟨s, List.mem_cons_self .., _, h⟩
    · obtain ⟨s', hs', n, hn⟩ := ih h
      exact ⟨s', List.mem_cons_of_mem s hs', n, hn⟩

theorem kind?_of_error? {s : Segment} {line n : Nat}
    (h : s.error? line = some (.unterminated n)) : s.kind? = some unterminated := by
  unfold error? at h
  split at h
  next kind hk =>
    by_cases hu : kind = unterminated
    · rw [hk, hu]
    · simp [hu] at h
  next => simp at h

/-- Only the last error can be an unterminated string, if only the last segment is one. -/
theorem eq_nil_of_located_unterminated {line n : Nat} {segs : List Segment}
    (hlast : ∀ before s after, segs = before ++ s :: after → s.kind? = some unterminated →
      after = []) {before after : List LexicalError}
    (h : located error? line segs = before ++ .unterminated n :: after) : after = [] := by
  induction segs generalizing line before with
  | nil => simp [located] at h
  | cons s segs ih =>
    have hrest : ∀ b s' a, segs = b ++ s' :: a → s'.kind? = some unterminated → a = [] := by
      intro b s' a hsegs hs'
      exact hlast (s :: b) s' a (by rw [hsegs]; rfl) hs'
    rw [located_cons] at h
    cases he : s.error? (line + s.text.count '\n') with
    | none =>
      rw [he] at h
      exact ih hrest h
    | some e =>
      rw [he] at h
      cases before with
      | nil =>
        obtain ⟨rfl, rfl⟩ := List.cons.inj h
        obtain rfl := hlast [] s segs rfl (kind?_of_error? he)
        rfl
      | cons b before => exact ih hrest (List.cons.inj h).2

/-! ## Proper tokens -/

theorem Munches.settle_eq {s : Segment} {input : List Char} {kind : Kind}
    (h : s.Munches input) (hk : s.kind? = some kind) : settle s.text kind = kind := by
  obtain ⟨-, h⟩ := h
  rw [hk] at h
  obtain ⟨-, -, hpreferred⟩ := h
  by_cases hid : kind = identifier
  · subst hid
    rcases ofWord_cases (String.ofList s.text) with ⟨hword, -⟩ | ⟨hword, htext⟩
    · exact hword
    · -- the reserved word would be preferred
      have hmatch : (ofWord (String.ofList s.text)).Matches s.text := by
        rw [matches_of_mem_reserved hword, htext, String.toList_ofList]
      rcases hpreferred _ hmatch with heq | ⟨-, hbad⟩
      · exact heq
      · exact absurd hbad (by decide)
  · exact if_neg hid

theorem Munches.proper {s : Segment} {input : List Char} {line : Nat} {t : Token}
    (h : s.Munches input) (ht : s.token? line = some t) : t.Proper := by
  unfold token? at ht
  split at ht
  next kind hk =>
    by_cases hskip : kind.isLayout ∨ kind = unterminated
    · rw [if_pos hskip] at ht
      cases ht
    · rw [if_neg hskip] at ht
      obtain rfl := Option.some.inj ht
      have hsettle := h.settle_eq hk
      obtain ⟨-, h⟩ := h
      rw [hk] at h
      exact ⟨by simpa using h.1, by simpa using hsettle, by simp⟩
  next => cases ht

/-- The tokens of a source text are proper ones. -/
theorem proper_of_mem_located {text : List Char} {line : Nat} {t : Token}
    (h : t ∈ located token? line (segments text)) : t.Proper := by
  obtain ⟨s, hs, n, ht⟩ := mem_located h
  obtain ⟨before, after, hsegs⟩ := List.append_of_mem hs
  exact (segments_munch hsegs).proper ht

end Segment

namespace Token.Proper

theorem kind_ne_eof {t : Token} (h : t.Proper) : t.kind ≠ .eof := by
  intro hk
  have hmatch := h.matches_lexeme
  rw [hk] at hmatch
  exact hmatch

theorem string_literal {t : Token} (h : t.Proper) (hk : t.kind = .string) :
    ∃ contents, t.lexeme = "\"" ++ contents ++ "\"" ∧ t.literal = some (.string contents) := by
  have hmatch := h.matches_lexeme
  have hliteral := h.literal_eq
  rw [hk] at hmatch hliteral
  obtain ⟨body, htext, -⟩ := hmatch
  refine ⟨String.ofList body, ?_, ?_⟩
  · rw [← String.toList_inj, htext]
    simp
  · rw [hliteral, htext]
    simp [Scan.literalOf]

end Token.Proper

/-! ## The whole text -/

/-- **Scanning is longest match with exact lines, and nothing of the text is lost.**  The
text is made up of segments.  Each is the longest match where it stands, an unterminated
string is the last one, and the tokens, closed by the end of input, and the errors are the
segments in order, each with the line on which it ends.  The literal of a string is its
lexeme without the quotes. -/
theorem scan_munches (source : String) :
    ∃ segs : List Segment,
      segs.flatMap Segment.text = source.toList ∧
      (∀ before s after, segs = before ++ s :: after →
        s.Munches (s.text ++ after.flatMap Segment.text) ∧
          (s.kind? = some .unterminated → after = [])) ∧
      (scan source).tokens = Segment.located Segment.token? 1 segs ++
        [Token.eof (1 + source.toList.count '\n')] ∧
      (scan source).errors = Segment.located Segment.error? 1 segs ∧
      (∀ t ∈ Segment.located Segment.token? 1 segs, t.kind ≠ .eof) ∧
      (∀ before n after, (scan source).errors = before ++ .unterminated n :: after →
        after = []) ∧
      ∀ t ∈ (scan source).tokens, t.kind = .string → ∃ contents,
        t.lexeme = "\"" ++ contents ++ "\"" ∧ t.literal = some (.string contents) := by
  have hmunch : ∀ before s after, Segment.segments source.toList = before ++ s :: after →
      s.Munches (s.text ++ after.flatMap Segment.text) ∧
        (s.kind? = some .unterminated → after = []) := by
    intro before s after h
    exact ⟨Segment.segments_munch h, Segment.eq_nil_of_unterminated h⟩
  have hone : ∀ s ∈ Segment.segments source.toList, s.kind? = none → s.text.length = 1 := by
    intro s hs hk
    obtain ⟨before, after, hsegs⟩ := List.append_of_mem hs
    have h := (Segment.segments_munch hsegs).2
    rw [hk] at h
    exact h.1
  have hlines : ∀ s ∈ Segment.segments source.toList, s.lines = s.text.count '\n' :=
    fun _ => Segment.lines_of_mem_segments
  have htokens := Segment.tokens_ofSegments 1 hlines
  rw [Segment.flatMap_text_segments] at htokens
  have herrors := Segment.errors_ofSegments 1 hlines hone
  refine ⟨Segment.segments source.toList, Segment.flatMap_text_segments _, hmunch, htokens,
    herrors, ?_, ?_, ?_⟩
  · intro t ht
    exact (Segment.proper_of_mem_located ht).kind_ne_eof
  · intro before n after h
    refine Segment.eq_nil_of_located_unterminated ?_ (herrors.symm.trans h)
    intro b s a hsegs
    exact (hmunch b s a hsegs).2
  · intro t ht hk
    have ht : t ∈ _ := htokens ▸ ht
    rcases List.mem_append.1 ht with ht | ht
    · exact (Segment.proper_of_mem_located ht).string_literal hk
    · obtain rfl := List.mem_singleton.1 ht
      cases hk

end Lox
