import Lox.Proofs.Token.Spelling

/-!
# Layout

What stands between the lexemes of a text settles the lines of its tokens, and nothing else.

* `scan_append_newline` — two texts with a line break between them scan as one after the
  other, and the tokens of the second stand further down by the lines of the first.
* `scan_spaced` — the lexemes of a text, with single spaces between them, scan as the same
  tokens again, on other lines perhaps.
-/

namespace Lox

/-! ## Further down -/

/-- The token, `n` lines further down. -/
def Token.shift (n : Nat) (t : Token) : Token := { t with line := t.line + n }

/-- The error, `n` lines further down. -/
def LexicalError.shift (n : Nat) : LexicalError → LexicalError
  | unexpected c line => .unexpected c (line + n)
  | unterminated line => .unterminated (line + n)

namespace Scan

/-- The scan of a text that stands `n` lines further down. -/
def shift (n : Nat) (s : Scan) : Scan :=
  ⟨s.tokens.map (Token.shift n), s.errors.map (LexicalError.shift n)⟩

theorem add_shift (n line : Nat) (s : Segment) (rest : Scan) :
    add (line + n) s (rest.shift n) = (add line s rest).shift n := by
  unfold add
  split
  next => simp [shift, LexicalError.shift, Function.comp_def]
  next => rfl
  next =>
    split
    · rfl
    · rfl

theorem ofSegments_shift (n line : Nat) (segs : List Segment) :
    ofSegments (line + n) segs = (ofSegments line segs).shift n := by
  induction segs generalizing line with
  | nil => rfl
  | cons s segs ih => rw [ofSegments, ofSegments, Nat.add_right_comm, ih, add_shift]

/-! ## Texts one after the other -/

/-- The scan of a text and of the one behind it: only the last end of input stays. -/
def append (s s' : Scan) : Scan := ⟨s.tokens.dropLast ++ s'.tokens, s.errors ++ s'.errors⟩

theorem tokens_ne_nil (line : Nat) (segs : List Segment) : (ofSegments line segs).tokens ≠ [] := by
  cases segs with
  | nil => simp [ofSegments]
  | cons s segs =>
    rw [ofSegments, Segment.tokens_add]
    exact List.append_ne_nil_of_right_ne_nil _ (tokens_ne_nil _ segs)

theorem add_append (line : Nat) (s : Segment) {rest : Scan} (h : rest.tokens ≠ []) (more : Scan) :
    add line s (rest.append more) = (add line s rest).append more := by
  unfold add
  split
  next => simp [append]
  next => rfl
  next =>
    split
    · rfl
    · simp [append, List.dropLast_cons_of_ne_nil h]

theorem ofSegments_append (line : Nat) {segs : List Segment}
    (hlines : ∀ s ∈ segs, s.lines = s.text.count '\n') (segs' : List Segment) :
    ofSegments line (segs ++ segs') =
      (ofSegments line segs).append
        (ofSegments (line + (segs.flatMap Segment.text).count '\n') segs') := by
  induction segs generalizing line with
  | nil => simp [append, ofSegments]
  | cons s segs ih =>
    obtain ⟨hs, hsegs⟩ := List.forall_mem_cons.1 hlines
    simp only [List.cons_append, ofSegments, hs, ih _ hsegs, List.flatMap_cons, List.count_append]
    rw [add_append _ _ (tokens_ne_nil _ _), Nat.add_assoc]

end Scan

namespace Segment

/-- A run of a class without line breaks ends at a line break. -/
theorem takeWhile_append_newline {p : Char → Bool} (hp : p '\n' = false) (cs tail : List Char) :
    (cs ++ '\n' :: tail).takeWhile p = cs.takeWhile p := by
  induction cs with
  | nil => simp [hp]
  | cons c cs ih => simp [List.takeWhile_cons, ih]

theorem dropWhile_append_newline {p : Char → Bool} (hp : p '\n' = false) (cs tail : List Char) :
    (cs ++ '\n' :: tail).dropWhile p = cs.dropWhile p ++ '\n' :: tail := by
  induction cs with
  | nil => simp [hp]
  | cons c cs ih =>
    simp only [List.cons_append, List.dropWhile_cons, ih]
    split <;> rfl

/-- The segment is the same if a line break and more text stand behind the text. -/
def EndsLine (cut : List Char → Segment × List Char) (cs : List Char) : Prop :=
  ∀ tail, cut (cs ++ '\n' :: tail) = ((cut cs).1, (cut cs).2 ++ '\n' :: tail)

theorem endsLine_single (kind : Kind) (c : Char) (cs : List Char) :
    EndsLine (single kind c) cs := fun _ => rfl

theorem endsLine_orEqual (short long : Kind) (c : Char) (cs : List Char) :
    EndsLine (orEqual short long c) cs := by
  intro tail
  cases cs with
  | nil => rfl
  | cons d ds =>
    by_cases hd : d = '='
    · subst hd
      rfl
    · simp [orEqual, hd]

theorem endsLine_run {kind : Kind} {p : Char → Bool} (hp : p '\n' = false) (c : Char)
    (cs : List Char) : EndsLine (run kind p c) cs := by
  intro tail
  rw [run, run, takeWhile_append_newline hp, dropWhile_append_newline hp]

theorem endsLine_word (c : Char) (cs : List Char) : EndsLine (word c) cs := by
  intro tail
  simp only [word, takeWhile_append_newline (p := isWordChar) rfl,
    dropWhile_append_newline (p := isWordChar) rfl]

theorem endsLine_numeral (c : Char) (cs : List Char) : EndsLine (numeral c) cs := by
  intro tail
  simp only [numeral, takeWhile_append_newline (p := Char.isDigit) rfl,
    dropWhile_append_newline (p := Char.isDigit) rfl]
  -- the point needs a digit behind it, which a line break is not
  cases cs.dropWhile Char.isDigit with
  | nil => rfl
  | cons d ds =>
    by_cases hd : d = '.'
    · subst hd
      cases ds with
      | nil => rfl
      | cons e es =>
        by_cases he : e.isDigit
        · simp [he, takeWhile_append_newline (p := Char.isDigit) rfl,
            dropWhile_append_newline (p := Char.isDigit) rfl]
        · simp [he]
    · simp [hd]

theorem endsLine_slash (c : Char) (cs : List Char) : EndsLine (slash c) cs := by
  intro tail
  cases cs with
  | nil => rfl
  | cons d ds =>
    by_cases hd : d = '/'
    · subst hd
      simp [slash, takeWhile_append_newline, dropWhile_append_newline]
    · simp [slash, hd]

/-- A string that is closed ends where it did. -/
theorem endsLine_quoted {c : Char} {cs : List Char}
    (h : (quoted c cs).1.kind? ≠ some .unterminated) : EndsLine (quoted c) cs := by
  intro tail
  cases hrest : cs.dropWhile (· != '"') with
  | nil => simp [quoted, hrest] at h
  | cons q rest =>
    have hlen : (cs.takeWhile (· != '"')).length ≠ cs.length := by
      have hsplit := congrArg List.length
        (List.takeWhile_append_dropWhile (p := (· != '"')) (l := cs))
      rw [hrest, List.length_append, List.length_cons] at hsplit
      omega
    simp [quoted, hrest, List.takeWhile_append, List.dropWhile_append, hlen]

theorem endsLine_first {c : Char} {cs : List Char}
    (h : (first c cs).1.kind? ≠ some .unterminated) : EndsLine (first c) cs := by
  intro tail
  unfold first at h ⊢
  split
  next => exact endsLine_word c cs tail
  next hword =>
  rw [if_neg hword] at h
  split
  next => exact endsLine_numeral c cs tail
  next hdigit =>
  rw [if_neg hdigit] at h
  split
  next => exact endsLine_run rfl c cs tail
  next hblank =>
  rw [if_neg hblank] at h
  split
  case h_2 => exact endsLine_quoted h tail
  case h_3 => exact endsLine_slash _ cs tail
  case h_18 => rfl
  all_goals first | exact endsLine_single _ _ cs tail | exact endsLine_orEqual _ _ _ cs tail

/-- A line break is a segment, unless it stands in a string that does not end. -/
theorem segments_append_newline {text : List Char}
    (h : ∀ s ∈ segments text, s.kind? ≠ some .unterminated) (tail : List Char) :
    segments (text ++ '\n' :: tail) =
      segments text ++ ⟨some .newline, ['\n']⟩ :: segments tail := by
  fun_induction segments text with
  | case1 =>
    rw [List.nil_append, List.nil_append, segments]
    rfl
  | case2 c cs ih =>
    obtain ⟨hfirst, hrest⟩ := List.forall_mem_cons.1 h
    rw [List.cons_append, segments, endsLine_first hfirst, List.cons_append]
    rw [← ih hrest]

end Segment

namespace Scan

theorem mem_errors_add {line : Nat} {s : Segment} {rest : Scan} {e : LexicalError}
    (h : e ∈ rest.errors) : e ∈ (add line s rest).errors := by
  unfold add
  split
  next => exact List.mem_append_right _ h
  next => exact List.mem_cons_of_mem _ h
  next => split <;> exact h

/-- A string that does not end shows in the errors. -/
theorem kind?_ne_unterminated {line : Nat} {segs : List Segment}
    (h : ∀ n, .unterminated n ∉ (ofSegments line segs).errors) :
    ∀ s ∈ segs, s.kind? ≠ some .unterminated := by
  induction segs generalizing line with
  | nil => simp
  | cons s segs ih =>
    rw [ofSegments] at h
    refine List.forall_mem_cons.2 ⟨?_, ih fun n hn => h n (mem_errors_add hn)⟩
    intro hk
    refine h (line + s.lines) ?_
    simp [add, hk]

end Scan

/-- **Texts scan one after the other.**  If the first text does not end within a string, and
a line break stands between the two, then no lexeme of the first goes on in the second, and
the tokens and errors of the second stand further down by the lines of the first. -/
theorem scan_append_newline {first : String} (h : ∀ n, .unterminated n ∉ (scan first).errors)
    (second : String) :
    scan (first ++ "\n" ++ second) =
      (scan first).append ((scan second).shift (1 + first.toList.count '\n')) := by
  have htext : (first ++ "\n" ++ second).toList = first.toList ++ '\n' :: second.toList := by
    simp
  have hline : Scan.ofSegments (1 + first.toList.count '\n')
      (⟨some .newline, ['\n']⟩ :: Segment.segments second.toList) =
        (scan second).shift (1 + first.toList.count '\n') := by
    rw [Scan.ofSegments, Scan.add_layout rfl, scan, ← Scan.ofSegments_shift]
    congr 1
    exact Nat.add_comm _ 1
  rw [scan, htext, Segment.segments_append_newline (Scan.kind?_ne_unterminated h),
    Scan.ofSegments_append 1 fun _ => Segment.lines_of_mem_segments,
    Segment.flatMap_text_segments, hline]
  rfl

/-! ## Lexemes with single spaces between them -/

/-- A token that the scanner gives: a proper one that is no layout and no string without
end. -/
structure Token.Written (t : Token) : Prop where
  proper : t.Proper
  visible : t.kind.isLayout = false
  closed : t.kind ≠ .unterminated

theorem Segment.visible_of_token? {s : Segment} {line : Nat} {t : Token}
    (h : s.token? line = some t) : t.kind.isLayout = false ∧ t.kind ≠ .unterminated := by
  unfold token? at h
  split at h
  next kind _ =>
    by_cases hskip : kind.isLayout ∨ kind = .unterminated
    · rw [if_pos hskip] at h
      cases h
    · rw [if_neg hskip] at h
      obtain rfl := Option.some.inj h
      simpa using hskip
  next => cases h

/-- The tokens of a scan without the end of input. -/
def Scan.visible (s : Scan) : List Token := s.tokens.filter (·.kind ≠ .eof)

theorem Scan.kind_ne_eof_of_mem_visible (s : Scan) : ∀ t ∈ s.visible, t.kind ≠ .eof := by
  intro t ht
  simpa using (List.mem_filter.1 ht).2

theorem visible_scan (source : String) :
    (scan source).visible =
      Segment.located Segment.token? 1 (Segment.segments source.toList) := by
  have hne : ∀ t ∈ Segment.located Segment.token? 1 (Segment.segments source.toList),
      t.kind ≠ .eof := by
    intro t ht
    exact (Segment.proper_of_mem_located ht).kind_ne_eof
  rw [Scan.visible, scan, Segment.tokens_ofSegments 1 fun _ => Segment.lines_of_mem_segments,
    List.filter_append, List.filter_eq_self.2 (by simpa using hne)]
  simp [Token.eof]

theorem tokens_scan (source : String) :
    (scan source).tokens =
      (scan source).visible ++ [Token.eof (1 + source.toList.count '\n')] := by
  rw [visible_scan, scan, Segment.tokens_ofSegments 1 fun _ => Segment.lines_of_mem_segments,
    Segment.flatMap_text_segments]

theorem written_of_mem_visible {source : String} {t : Token} (h : t ∈ (scan source).visible) :
    t.Written := by
  rw [visible_scan] at h
  obtain ⟨s, -, n, ht⟩ := Segment.mem_located h
  obtain ⟨hvisible, hclosed⟩ := Segment.visible_of_token? ht
  exact ⟨Segment.proper_of_mem_located h, hvisible, hclosed⟩

/-- The lexemes of tokens, with single spaces between them. -/
def Token.spaced (ts : List Token) : String := " ".intercalate (ts.map Token.lexeme)

/-- The lexemes of tokens, with a space before each of them. -/
def Token.spacedTail (ts : List Token) : List Char := ts.flatMap fun t => ' ' :: t.lexeme.toList

theorem Token.toList_spaced (t : Token) (ts : List Token) :
    (spaced (t :: ts)).toList = t.lexeme.toList ++ spacedTail ts := by
  induction ts generalizing t with
  | nil => simp [spaced, spacedTail]
  | cons u ts ih =>
    have hrest : (spaced (u :: ts)).toList = u.lexeme.toList ++ spacedTail ts := ih u
    rw [spaced, List.map_cons] at hrest ⊢
    rw [List.map_cons, String.intercalate_cons_cons, String.toList_append, String.toList_append,
      hrest]
    simp [spacedTail]

namespace Scan

theorem setOff_spacedTail (ts : List Token) : SetOff (Token.spacedTail ts) := by
  cases ts with
  | nil => exact setOff_nil
  | cons t ts => exact setOff_space _

/-- A lexeme and further ones with a space before each of them. -/
theorem spells_lexeme_spaced {t : Token} {ts : List Token} (ht : t.Written)
    (hts : ∀ line, ∃ ts', Spells line (Token.spacedTail ts) [] ts' ∧
      ts'.map Token.forgetLine = ts.map Token.forgetLine) (line : Nat) :
    ∃ ts', Spells line (t.lexeme.toList ++ Token.spacedTail ts) [] ts' ∧
      ts'.map Token.forgetLine = (t :: ts).map Token.forgetLine := by
  have hends : t.kind.EndsAt (Token.spacedTail ts ++ []) := by
    rw [List.append_nil]
    exact endsAt_of_setOff ht.visible ht.closed (setOff_spacedTail ts)
  obtain ⟨t', ht', hsame⟩ := ht.proper.spells line hends ht.visible ht.closed
  obtain ⟨ts', hts', hsames⟩ := hts (line + t.lexeme.toList.count '\n')
  exact ⟨[t'] ++ ts', spells_append ht' hts', by simp [hsame, hsames]⟩

theorem spells_spacedTail {ts : List Token} (h : ∀ t ∈ ts, t.Written) (line : Nat) :
    ∃ ts', Spells line (Token.spacedTail ts) [] ts' ∧
      ts'.map Token.forgetLine = ts.map Token.forgetLine := by
  induction ts generalizing line with
  | nil => exact ⟨[], rfl, rfl⟩
  | cons t ts ih =>
    obtain ⟨ht, hts⟩ := List.forall_mem_cons.1 h
    obtain ⟨ts', hts', hsame⟩ := spells_lexeme_spaced ht (ih hts) line
    have hblank : Kind.Stops Segment.isBlank ((t.lexeme.toList ++ Token.spacedTail ts) ++ []) := by
      rw [List.append_assoc]
      exact stops_blank_of_matches ht.proper.matches_lexeme ht.visible _
    exact ⟨ts', spells_append (spells_space line hblank) hts', hsame⟩

end Scan

/-- **Lexemes with single spaces between them scan as the same tokens**, without errors, and
on other lines perhaps. -/
theorem scan_spaced {ts : List Token} (h : ∀ t ∈ ts, t.Written) :
    ∃ ts' n, (scan (Token.spaced ts)).tokens = ts' ++ [Token.eof n] ∧
      (scan (Token.spaced ts)).errors = [] ∧
      ts'.map Token.forgetLine = ts.map Token.forgetLine := by
  have hspells : ∃ ts', Scan.Spells 1 (Token.spaced ts).toList [] ts' ∧
      ts'.map Token.forgetLine = ts.map Token.forgetLine := by
    cases ts with
    | nil => exact ⟨[], rfl, rfl⟩
    | cons t ts =>
      obtain ⟨ht, hts⟩ := List.forall_mem_cons.1 h
      rw [Token.toList_spaced]
      exact Scan.spells_lexeme_spaced ht (Scan.spells_spacedTail hts) 1
  obtain ⟨ts', hts', hsame⟩ := hspells
  obtain ⟨n, htokens, herrors⟩ := scan_of_spells hts'
  exact ⟨ts', n, htokens, herrors, hsame⟩

end Lox
