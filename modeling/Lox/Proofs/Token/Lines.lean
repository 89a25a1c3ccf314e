import Lox.Proofs.Token.Layout

/-!
# The lines of a text

Every token and every lexical error is on a line of its text, and tokens are on later lines the
further back they stand.

* `onLines_scan` — the lines that a scan names.
* `sorted_scan` — tokens in source order are in the order of their lines.
-/

namespace Lox

/-- All lines that a scan names have a property. -/
def Scan.OnLines (P : Nat → Prop) (result : Scan) : Prop :=
  (∀ t ∈ result.tokens, P t.line) ∧ ∀ e ∈ result.errors, P e.line

theorem Scan.onLines_add {P : Nat → Prop} {rest : Scan} (hrest : rest.OnLines P) {line : Nat}
    (hline : P line) (s : Segment) : (add line s rest).OnLines P := by
  obtain ⟨htokens, herrors⟩ := hrest
  rw [add]
  split
  · refine ⟨htokens, List.forall_mem_append.2 ⟨?_, herrors⟩⟩
    intro e he
    obtain ⟨c, -, rfl⟩ := List.mem_map.1 he
    exact hline
  · exact ⟨htokens, List.forall_mem_cons.2 ⟨hline, herrors⟩⟩
  · split
    · exact ⟨htokens, herrors⟩
    · exact ⟨List.forall_mem_cons.2 ⟨hline, htokens⟩, herrors⟩

/-- The lines of a text that begins on the line `first`. -/
def LineOf (first : Nat) (text : List Char) (line : Nat) : Prop :=
  first ≤ line ∧ line ≤ first + text.count '\n'

theorem Scan.onLines_ofSegments (first : Nat) {segs : List Segment}
    (hlines : ∀ s ∈ segs, s.lines = s.text.count '\n') :
    (ofSegments first segs).OnLines (LineOf first (segs.flatMap Segment.text)) := by
  induction segs generalizing first with
  | nil => simp [ofSegments, OnLines, Token.eof, LineOf]
  | cons s segs ih =>
    have hlater : ∀ {line}, LineOf (first + s.text.count '\n') (segs.flatMap Segment.text) line →
        LineOf first ((s :: segs).flatMap Segment.text) line := by
      rintro line ⟨hlow, hhigh⟩
      rw [LineOf, List.flatMap_cons, List.count_append]
      omega
    obtain ⟨hs, hsegs⟩ := List.forall_mem_cons.1 hlines
    obtain ⟨htokens, herrors⟩ := ih (first + s.text.count '\n') hsegs
    rw [ofSegments, hs]
    refine onLines_add ⟨fun t ht => hlater (htokens t ht), fun e he => hlater (herrors e he)⟩ ?_ s
    rw [LineOf, List.flatMap_cons, List.count_append]
    omega

/-- The lines that a scan names are lines of the text. -/
theorem onLines_scan (source : String) : (scan source).OnLines (LineOf 1 source.toList) := by
  have h := Scan.onLines_ofSegments 1 fun s (hs : s ∈ Segment.segments source.toList) =>
    Segment.lines_of_mem_segments hs
  rwa [Segment.flatMap_text_segments] at h

/-- Each token is on the line of the token before it or on a later one. -/
def Scan.Sorted (result : Scan) : Prop := result.tokens.Pairwise fun t u => t.line ≤ u.line

theorem Scan.sorted_add {rest : Scan} (hrest : rest.Sorted) {line : Nat}
    (hline : ∀ t ∈ rest.tokens, line ≤ t.line) (s : Segment) : (add line s rest).Sorted := by
  rw [add]
  split
  · exact hrest
  · exact hrest
  · split
    · exact hrest
    · exact List.pairwise_cons.2 ⟨hline, hrest⟩

theorem Scan.sorted_ofSegments (first : Nat) {segs : List Segment}
    (hlines : ∀ s ∈ segs, s.lines = s.text.count '\n') : (ofSegments first segs).Sorted := by
  induction segs generalizing first with
  | nil => exact List.pairwise_singleton _ _
  | cons s segs ih =>
    have hsegs := (List.forall_mem_cons.1 hlines).2
    have hlater := (onLines_ofSegments (first + s.lines) hsegs).1
    exact sorted_add (ih _ hsegs) (fun t ht => (hlater t ht).1) s

/-- Tokens in source order are in the order of their lines. -/
theorem sorted_scan (source : String) : (scan source).Sorted :=
  Scan.sorted_ofSegments 1 fun _ => Segment.lines_of_mem_segments

/-- The scan of a text holds the end of input. -/
theorem exists_eof_mem_scan (source : String) : ∃ t ∈ (scan source).tokens, t.kind = .eof := by
  rw [tokens_scan]
  exact ⟨_, List.mem_append_right _ (List.mem_singleton_self _), rfl⟩

end Lox
