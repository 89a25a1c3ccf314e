import Lox.Proofs.Token.Layout

/-!
# Bracketed texts

A form is a word, a head with further forms in parentheses, or forms in braces.  As no word has a
space or a bracket in it, a text is read as a form in one way only.

* `Form`, `Form.text` — forms and their text.
* `Form.Plain.unique` — a text begins with one form at most.
* `Token.Written.isWord` — the tokens whose lexemes are words.
-/

namespace Lox

/-! ## Forms -/

/-- What a prefix form is made of. -/
inductive Form where
  | word (text : List Char)
  /-- A head with its parts, in parentheses. -/
  | node (head : List Char) (parts : List Form)
  | braces (parts : List Form)

namespace Form

mutual

/-- The text of a form. -/
def text : Form → List Char
  | .word w => w
  | .node head parts => '(' :: (head ++ (texts parts ++ [')']))
  | .braces parts => '\x7b' :: (texts parts ++ [' ', '\x7d'])

/-- The texts of forms, a space before each. -/
def texts : List Form → List Char
  | [] => []
  | f :: rest => ' ' :: (f.text ++ texts rest)

end

/-- The characters between words. -/
def isMark (c : Char) : Bool := c ∈ [' ', '(', ')', '\x7b', '\x7d']

/-- A text without such characters. -/
def IsWord (w : List Char) : Prop := w ≠ [] ∧ ∀ c ∈ w, isMark c = false

instance (w : List Char) : Decidable (IsWord w) :=
  decidable_of_iff (w ≠ [] ∧ w.all (fun c => !isMark c)) (by simp [IsWord])

/-- The text is empty or begins with such a character. -/
def Apart (rest : List Char) : Prop := Kind.Stops (fun c => !isMark c) rest

/-- The text closes a list of forms. -/
inductive Closes : List Char → Prop where
  | paren (rest : List Char) : Closes (')' :: rest)
  | brace (rest : List Char) : Closes (' ' :: '\x7d' :: rest)

/-- All words and heads in a form are words. -/
inductive Plain : Form → Prop where
  | word {w : List Char} (hw : IsWord w) : Plain (.word w)
  | node {head : List Char} {parts : List Form} (hhead : IsWord head)
      (hparts : ∀ f ∈ parts, Plain f) : Plain (.node head parts)
  | braces {parts : List Form} (hparts : ∀ f ∈ parts, Plain f) : Plain (.braces parts)

/-- No other form begins a text that this form begins. -/
def Unique (f : Form) : Prop :=
  ∀ {f' : Form} {rest rest' : List Char}, f'.Plain → Apart rest → Apart rest' →
    f.text ++ rest = f'.text ++ rest' → f = f' ∧ rest = rest'

variable {f : Form} {parts parts' : List Form} {w w' rest rest' : List Char}

/-- A word does not begin with a mark. -/
theorem IsWord.append_ne_cons (h : IsWord w) {c : Char} (hc : isMark c) {cs : List Char} :
    w ++ rest ≠ c :: cs := by
  obtain ⟨hne, hmarks⟩ := h
  cases w with
  | nil => exact absurd rfl hne
  | cons d w =>
    rintro heq
    obtain rfl : d = c := (List.cons.inj heq).1
    simp [hmarks d List.mem_cons_self] at hc

/-- A word is read up to the next mark. -/
theorem IsWord.unique (h : IsWord w) (h' : IsWord w') (hrest : Apart rest) (hrest' : Apart rest')
    (heq : w ++ rest = w' ++ rest') : w = w' ∧ rest = rest' := by
  have htake := Segment.takeWhile_append_stops (by simpa using h.2) hrest
  have htake' := Segment.takeWhile_append_stops (by simpa using h'.2) hrest'
  rw [heq] at htake
  obtain rfl : w = w' := htake.symm.trans htake'
  exact ⟨rfl, List.append_cancel_left heq⟩

theorem Closes.apart (h : Closes rest) : Apart rest := by
  cases h <;> simp [Apart, Kind.Stops, isMark]

/-- Behind a head or a part there is a space before the next part, or the end. -/
theorem Closes.apart_texts (h : Closes rest) (parts : List Form) :
    Apart (texts parts ++ rest) := by
  cases parts with
  | nil => exact h.apart
  | cons f parts => simp [texts, Apart, Kind.Stops, isMark]

/-- No part begins where a list of parts is closed. -/
theorem Closes.ne_texts (h : Closes rest) (hf : f.Plain) : rest ≠ texts (f :: parts) ++ rest' := by
  rw [texts]
  cases h with
  | paren rest => simp
  | brace rest =>
    cases hf with
    | word hw =>
      intro heq
      simp only [text, List.cons_append, List.append_assoc, List.cons.injEq, true_and] at heq
      exact hw.append_ne_cons (c := '\x7d') rfl heq.symm
    | node hhead hparts => simp [text]
    | braces hparts => simp [text]

theorem texts_unique (hunique : ∀ f ∈ parts, f.Unique) (hparts : ∀ f ∈ parts, f.Plain)
    (hparts' : ∀ f ∈ parts', f.Plain) (hrest : Closes rest) (hrest' : Closes rest')
    (heq : texts parts ++ rest = texts parts' ++ rest') : parts = parts' ∧ rest = rest' := by
  induction parts generalizing parts' with
  | nil =>
    cases parts' with
    | nil => exact ⟨rfl, heq⟩
    | cons f' parts' => exact absurd heq (hrest.ne_texts (hparts' f' List.mem_cons_self))
  | cons f parts ih =>
    rw [List.forall_mem_cons] at hunique hparts
    cases parts' with
    | nil => exact absurd heq.symm (hrest'.ne_texts hparts.1)
    | cons f' parts' =>
      rw [List.forall_mem_cons] at hparts'
      simp only [texts, List.cons_append, List.append_assoc, List.cons.injEq, true_and] at heq
      obtain ⟨rfl, htail⟩ := hunique.1 hparts'.1 (hrest.apart_texts parts)
        (hrest'.apart_texts parts') heq
      obtain ⟨rfl, rfl⟩ := ih hunique.2 hparts.2 hparts'.2 htail
      exact ⟨rfl, rfl⟩

/-- **A text begins with one form at most.** -/
theorem Plain.unique (h : f.Plain) : f.Unique := by
  induction h with
  | word hw =>
    intro f' rest rest' hf' hrest hrest' heq
    cases hf' with
    | word hw' =>
      obtain ⟨rfl, rfl⟩ := hw.unique hw' hrest hrest' heq
      exact ⟨rfl, rfl⟩
    | node => exact absurd heq (hw.append_ne_cons (c := '(') rfl)
    | braces => exact absurd heq (hw.append_ne_cons (c := '\x7b') rfl)
  | node hhead hparts ih =>
    intro f' rest rest' hf' hrest hrest' heq
    cases hf' with
    | word hw' => exact absurd heq.symm (hw'.append_ne_cons (c := '(') rfl)
    | braces => simp [text] at heq
    | node hhead' hparts' =>
      simp only [text, List.cons_append, List.append_assoc, List.cons.injEq, true_and,
        List.nil_append] at heq
      -- the head ends where the first part begins, or at the parenthesis
      obtain ⟨rfl, htail⟩ := hhead.unique hhead' ((Closes.paren rest).apart_texts _)
        ((Closes.paren rest').apart_texts _) heq
      obtain ⟨rfl, hend⟩ := texts_unique ih hparts hparts' (.paren rest) (.paren rest') htail
      exact ⟨rfl, (List.cons.inj hend).2⟩
  | braces hparts ih =>
    intro f' rest rest' hf' hrest hrest' heq
    cases hf' with
    | word hw' => exact absurd heq.symm (hw'.append_ne_cons (c := '\x7b') rfl)
    | node => simp [text] at heq
    | braces hparts' =>
      simp only [text, List.cons_append, List.append_assoc, List.cons.injEq, true_and,
        List.nil_append] at heq
      obtain ⟨rfl, hend⟩ := texts_unique ih hparts hparts' (.brace rest) (.brace rest') heq
      exact ⟨rfl, (List.cons.inj (List.cons.inj hend).2).2⟩

theorem Plain.eq_of_text {f' : Form} (h : f.Plain) (h' : f'.Plain) (heq : f.text = f'.text) :
    f = f' :=
  (h.unique h' (Kind.stops_nil _) (Kind.stops_nil _) (congrArg (· ++ []) heq)).1

end Form

/-! ## Words -/

namespace Form

/-- A class of characters without marks. -/
theorem isMark_of_class {p : Char → Bool} (hp : p ' ' = false ∧ p '(' = false ∧ p ')' = false ∧
    p '\x7b' = false ∧ p '\x7d' = false) {c : Char} (hc : p c) : isMark c = false := by
  rw [← Bool.not_eq_true]
  intro hmark
  simp only [isMark, List.mem_cons, List.not_mem_nil, or_false, decide_eq_true_eq] at hmark
  rcases hmark with rfl | rfl | rfl | rfl | rfl <;> simp_all

theorem isWord_of_identifier {w : List Char} (h : Kind.identifier.Matches w) : IsWord w := by
  obtain ⟨c, cs, rfl, hc, hcs⟩ := h
  refine ⟨by simp, fun d hd => isMark_of_class (p := Segment.isWordChar) (by decide) ?_⟩
  rcases List.mem_cons.1 hd with rfl | hd
  · rcases hc with hc | rfl
    · simp [Segment.isWordChar, Char.isAlphanum, hc]
    · rfl
  · rcases hcs d hd with hd | rfl
    · simp [Segment.isWordChar, hd]
    · rfl

theorem isWord_of_number {w : List Char} (h : Kind.number.Matches w) : IsWord w := by
  have hall : ∀ c ∈ w, c.isDigit || c == '.' := by
    rcases h with ⟨-, hdigits⟩ | ⟨whole, part, rfl, ⟨-, hwhole⟩, -, hpart⟩
    · intro c hc
      simp [hdigits c hc]
    · intro c hc
      rcases List.mem_append.1 hc with hc | hc
      · simp [hwhole c hc]
      · rcases List.mem_cons.1 hc with rfl | hc
        · rfl
        · simp [hpart c hc]
  refine ⟨fun hw => Kind.matches_ne_nil (hw ▸ h), fun c hc => ?_⟩
  exact isMark_of_class (p := fun c => c.isDigit || c == '.') (by decide) (hall c hc)

end Form

/-- The brackets. -/
def Kind.brackets : List Kind := [.leftParen, .rightParen, .leftBrace, .rightBrace]

/-- A written token is a word, unless it is a string or a bracket. -/
theorem Token.Written.isWord {t : Token} (h : t.Written) (hstring : t.kind ≠ .string)
    (hbracket : t.kind ∉ Kind.brackets) : Form.IsWord t.lexeme.toList := by
  have hmatch := h.proper.matches_lexeme
  have hvisible := h.visible
  have hclosed := h.closed
  generalize t.lexeme.toList = w at hmatch ⊢
  generalize t.kind = kind at *
  by_cases hr : kind ∈ Kind.reserved
  · exact Form.isWord_of_identifier
      ((Kind.matches_of_mem_reserved hr).1 hmatch ▸ Kind.identifier_matches_text hr)
  cases kind with
  | identifier => exact Form.isWord_of_identifier hmatch
  | number => exact Form.isWord_of_number hmatch
  | string => exact absurd rfl hstring
  | unterminated => exact absurd rfl hclosed
  | comment | newline | blank => cases hvisible
  | eof => exact hmatch.elim
  | _ =>
    first
    | exact absurd (by decide) hr
    | exact absurd (by decide) hbracket
    | obtain rfl : w = _ := hmatch
      decide

end Lox
