import Lox.Proofs.Session.Output
import Lox.Session.Conversation

/-!
# The transcript of a conversation

What a conversation writes can be told from the lines alone, by running one after the other:
a prompt for each line, what its program writes, and the echo of its value.  If the sink
closes, the beginning of that is written.  The program whose output is cut fails like any
other, which is only a message to the conversation; but the next prompt finds the sink closed
and ends it.

* `lines_eq_splitOn` — the lines of an input are the pieces between its line feeds.
* `Session.Record`, `Session.recordLines` — what lines add to a conversation.
* `Console.Hears`, `hears_turn` — one line of a conversation against its record.
* `converse_append` — all lines of a conversation against their record.
* `conversation_is_fold` — conversations over any input, into any sink.
-/

namespace Lox

/-! ## Lines -/

namespace Text

/-- The line after the last line feed of an input, which may be missing. -/
def lastLine (broken : Bool) (piece : List UInt8) : List (Except IoError String) :=
  if broken then [.error .unreadable]
  else if piece.isEmpty then []
  else [decode piece]

/-- An input with a line feed is cut there into its first piece and the others. -/
theorem splitOn_of_contains {input : List UInt8} (h : input.contains lineFeed = true) :
    input.splitOn lineFeed = input.takeWhile (· != lineFeed) ::
      ((input.dropWhile (· != lineFeed)).drop 1).splitOn lineFeed := by
  have hfree : ∀ b ∈ input.takeWhile (· != lineFeed), (b == lineFeed) = false := by
    intro b hb
    simpa using List.all_eq_true.1 List.all_takeWhile b hb
  have hwhole := List.takeWhile_append_dropWhile (p := (· != lineFeed)) (l := input)
  cases hdrop : input.dropWhile (· != lineFeed) with
  | nil =>
    rw [hdrop, List.append_nil] at hwhole
    have hmem := List.contains_iff_mem.1 h
    rw [← hwhole] at hmem
    simpa using hfree lineFeed hmem
  | cons b rest =>
    have hb : b = lineFeed := by
      have := List.head?_dropWhile_not (· != lineFeed) input
      simpa [hdrop] using this
    have hsplit := List.splitOnP_append_cons_of_forall_mem hfree lineFeed (beq_self_eq_true _) rest
    rw [hdrop, hb] at hwhole
    rwa [hwhole] at hsplit

/-- The lines of an input are the pieces between its line feeds, each without a carriage
return at its end, and what stands after the last line feed. -/
theorem lines_eq_splitOn (broken : Bool) (input : List UInt8) :
    lines broken input =
      (input.splitOn lineFeed).dropLast.map (fun piece => decode (dropReturn piece)) ++
        lastLine broken ((input.splitOn lineFeed).getLastD []) := by
  have hsingle : ∀ {input : List UInt8}, ¬ input.contains lineFeed = true →
      input.splitOn lineFeed = [input] := by
    intro input h
    refine List.splitOnP_eq_singleton fun b hb => ?_
    have hne : b ≠ lineFeed := by
      rintro rfl
      exact h (List.contains_iff_mem.2 hb)
    simpa using hne
  fun_induction lines broken input with
  | case1 input hfeed ih =>
    rw [splitOn_of_contains hfeed, ih, List.dropLast_cons_of_ne_nil (List.splitOn_ne_nil _ _),
      List.map_cons, List.cons_append]
    congr 2
    cases hs : ((input.dropWhile (· != lineFeed)).drop 1).splitOn lineFeed with
    | nil => exact absurd hs (List.splitOn_ne_nil _ _)
    | cons piece pieces => rfl
  | case2 input hfeed hbroken => simp [hsingle hfeed, lastLine, hbroken]
  | case3 input hfeed hbroken hempty => simp [hsingle hfeed, lastLine, hbroken, hempty]
  | case4 input hfeed hbroken hempty => simp [hsingle hfeed, lastLine, hbroken, hempty]

end Text

open Run State

/-! ## Records -/

namespace Session

/-- What lines add to a conversation. -/
structure Record where
  /-- The environment that they leave. -/
  env : Environment
  /-- What is written to the output. -/
  output : ByteArray
  /-- What is told on the sink for messages. -/
  messages : ByteArray

/-- The echo of the value of a line. -/
def echo : Option Value → String
  | none => ""
  | some v => "=> " ++ v.text ++ "\n"

/-- The record of a line that was run with a sink of its own. -/
def Record.ofRun : EStateM.Result (Halt Failure) State (Option Value) → Record
  | .ok v st => ⟨st.env, st.out.accepted ++ (echo v).toUTF8, .empty⟩
  | .error (.raised failure) st => ⟨st.env, st.out.accepted, (failure.message ++ "\n").toUTF8⟩
  | .error _ st => ⟨st.env, st.out.accepted, .empty⟩

/-- Runs a line with a sink of its own, which takes everything. -/
def runAlone (fuel : Nat) (env : Environment) (line : String) :
    EStateM.Result (Halt Failure) State (Option Value) :=
  runLine fuel line ⟨env, .new none none⟩

/-- The record of a line; a blank one is skipped. -/
def recordLine (fuel : Nat) (env : Environment) (line : String) : Record :=
  if Text.isBlank line then ⟨env, .empty, .empty⟩ else .ofRun (runAlone fuel env line)

/-- The record of lines, of which each is run in the environment that the earlier ones leave.
There is a prompt before each line. -/
def recordLines (fuel : Nat) : Environment → List String → Record
  | env, [] => ⟨env, .empty, .empty⟩
  | env, line :: rest =>
    let now := recordLine fuel env line
    let later := recordLines fuel now.env rest
    ⟨later.env, "> ".toUTF8 ++ (now.output ++ later.output), now.messages ++ later.messages⟩

/-- Did a run come to an end before its fuel was used up? -/
def ended : EStateM.Result (Halt Failure) State (Option Value) → Bool
  | .error .outOfFuel _ => false
  | _ => true

/-- Do all lines come to an end, each in the environment that the earlier ones leave? -/
def allEnd (fuel : Nat) : Environment → List String → Bool
  | _, [] => true
  | env, line :: rest =>
    (Text.isBlank line || ended (runAlone fuel env line)) &&
      allEnd fuel (recordLine fuel env line).env rest

theorem Record.output_ofRun (r : EStateM.Result (Halt Failure) State (Option Value)) :
    ∃ more, (ofRun r).output = (final r).out.accepted ++ more := by
  cases r with
  | ok v st => exact ⟨_, rfl⟩
  | error halt st =>
    refine ⟨.empty, ?_⟩
    cases halt <;> exact (ByteArray.append_empty).symm

theorem Record.ofRun_ok (v : Option Value) (env : Environment) (bytes : ByteArray) :
    ofRun (.ok v ⟨env, (Sink.new none none).take bytes⟩) =
      ⟨env, bytes ++ (echo v).toUTF8, .empty⟩ := by
  simp [ofRun, Sink.take, Sink.new]

theorem Record.ofRun_raised (failure : Failure) (env : Environment) (bytes : ByteArray) :
    ofRun (.error (.raised failure) ⟨env, (Sink.new none none).take bytes⟩) =
      ⟨env, bytes, (failure.message ++ "\n").toUTF8⟩ := by
  simp [ofRun, Sink.take, Sink.new]

theorem Record.env_ofRun (r : EStateM.Result (Halt Failure) State (Option Value)) :
    (ofRun r).env = (final r).env := by
  cases r with
  | ok v st => rfl
  | error halt st => cases halt <;> rfl

/-- A line leaves scopes that form a chain. -/
theorem chained_recordLine {env : Environment} (henv : env.Chained) (fuel : Nat)
    (line : String) : (recordLine fuel env line).env.Chained := by
  rw [recordLine]
  split
  · exact henv
  · obtain ⟨task, -, htask⟩ := runLine_eq_task line
    rw [Record.env_ofRun, runAlone, htask]
    exact henv.of_same (task.sameChain fuel ⟨env, .new none none⟩ henv)

end Session

/-! ## One line -/

namespace Console

open Session

variable {out diagnostics : Sink} {env : Environment}
  {r : EStateM.Result (Halt IoError) Console Unit}

/-- A conversation that began with the sink `out` ended because the sink takes only a part of
`output`. -/
def Closes (out : Sink) (output : ByteArray) (r : EStateM.Result (Halt IoError) Console Unit) :
    Prop :=
  ∃ n console, out.room = some n ∧ n < output.size ∧ r = .error (.raised .closed) console ∧
    console.session.out = out.take (output.extract 0 n)

theorem not_closes {output : ByteArray} (hlimit : out.limit = none) : ¬ Closes out output r := by
  rintro ⟨n, -, hroom, hover, -⟩
  exact absurd (Sink.hasRoom_of_limit hlimit output n hroom) (Nat.not_le.2 hover)

theorem Closes.append {output : ByteArray} (h : Closes out output r) (more : ByteArray) :
    Closes out (output ++ more) r := by
  obtain ⟨n, console, hroom, hover, hr, hout⟩ := h
  refine ⟨n, console, hroom, ?_, hr, ?_⟩
  · rw [ByteArray.size_append]
    omega
  · rw [hout, extract_append_of_le (Nat.le_of_lt hover)]

theorem Closes.after {bytes output : ByteArray} (hb : out.HasRoom bytes)
    (h : Closes (out.take bytes) output r) : Closes out (bytes ++ output) r := by
  obtain ⟨m, console, hroom, hover, hr, hout⟩ := h
  rw [Sink.room_take, Option.map_eq_some_iff] at hroom
  obtain ⟨n, hn, rfl⟩ := hroom
  have hfits := hb n hn
  refine ⟨n, console, hn, ?_, hr, ?_⟩
  · rw [ByteArray.size_append]
    omega
  · rw [hout, Sink.take_take, extract_append_of_size_le hfits]

/-- What follows is not reached. -/
theorem Closes.bind {run : Run IoError Console Unit} {console : Console}
    {output : ByteArray} (h : Closes out output (run console))
    (f : Unit → Run IoError Console Unit) : Closes out output ((run >>= f) console) := by
  obtain ⟨n, last, hroom, hover, hr, hout⟩ := h
  exact ⟨n, last, hroom, hover, bind_of_error hr, hout⟩

/-- `Hears out diagnostics record r`: a part of a conversation that began with the two sinks
ended as `r`, and `record` tells what it adds.  Either it has added all of that, or the output
was cut; then the conversation goes on with a sink that is full, or it ended there. -/
inductive Hears (out diagnostics : Sink) (record : Record) :
    EStateM.Result (Halt IoError) Console Unit → Prop where
  | whole (fits : out.HasRoom record.output) :
      Hears out diagnostics record
        (.ok () ⟨⟨record.env, out.take record.output⟩, diagnostics.take record.messages⟩)
  | full {console n} (room : out.room = some n) (exceeds : n < record.output.size)
      (hout : console.session.out = out.take (record.output.extract 0 n)) :
      Hears out diagnostics record (.ok () console)
  | closed {last} (h : Closes out record.output last) : Hears out diagnostics record last

theorem Hears.of_whole {output messages : ByteArray} (fits : out.HasRoom output)
    (hr : r = .ok () ⟨⟨env, out.take output⟩, diagnostics.take messages⟩) :
    Hears out diagnostics ⟨env, output, messages⟩ r := by
  rw [hr]
  exact .whole fits

theorem say_cases (text : String) (env : Environment) (out diagnostics : Sink) :
    (out.HasRoom text.toUTF8 ∧ say text ⟨⟨env, out⟩, diagnostics⟩ =
        .ok () ⟨⟨env, out.take text.toUTF8⟩, diagnostics⟩) ∨
      Closes out text.toUTF8 (say text ⟨⟨env, out⟩, diagnostics⟩) := by
  rcases out.hasRoom_or_lt text.toUTF8 with hfits | ⟨n, hroom, hover⟩
  · refine .inl ⟨hfits, ?_⟩
    rw [say, onOutput, Sink.write_of_hasRoom hfits]
  · refine .inr ⟨n, ⟨⟨env, out.take (text.toUTF8.extract 0 n)⟩, diagnostics⟩, hroom, hover, ?_, rfl⟩
    rw [say, onOutput, Sink.write_of_room_lt hroom hover]

theorem prompt_cases (hflush : out.flushes = none) (env : Environment) (diagnostics : Sink) :
    (out.HasRoom "> ".toUTF8 ∧ prompt ⟨⟨env, out⟩, diagnostics⟩ =
        .ok () ⟨⟨env, out.take "> ".toUTF8⟩, diagnostics⟩) ∨
      Closes out "> ".toUTF8 (prompt ⟨⟨env, out⟩, diagnostics⟩) := by
  rcases say_cases "> " env out diagnostics with ⟨hfits, hsay⟩ | hclosed
  · refine .inl ⟨hfits, ?_⟩
    have hflush : (out.take "> ".toUTF8).flushes = none := hflush
    rw [prompt, bind_of_ok hsay, onOutput, Sink.flush, hflush]
  · exact .inr (hclosed.bind _)

theorem complain_eq (hdiag : diagnostics.limit = none) (text : String) (session : State) :
    complain text ⟨session, diagnostics⟩ = .ok () ⟨session, diagnostics.take text.toUTF8⟩ := by
  rw [complain, Sink.write_of_hasRoom (Sink.hasRoom_of_limit hdiag _)]

/-- The answer to a line is what its record tells. -/
theorem hears_answer (hdiag : diagnostics.limit = none) (henv : env.Chained) {fuel : Nat}
    {line : String} (hend : ended (runAlone fuel env line) = true) :
    Hears out diagnostics (.ofRun (runAlone fuel env line))
      (answer fuel line ⟨⟨env, out⟩, diagnostics⟩) := by
  obtain ⟨task, harises, htask⟩ := runLine_eq_task line
  have hcut := truncates_task task fuel (.new none none) out env rfl
  have hordinary : ∀ halt st', task.perform fuel ⟨env, .new none none⟩ = .error halt st' →
      halt.IsOrdinary := fun _ _ => harises.isOrdinary henv
  rw [← htask] at hcut hordinary
  rw [answer]
  rw [runAlone] at hend ⊢
  generalize runLine fuel line ⟨env, .new none none⟩ = r at hcut hordinary hend ⊢
  generalize runLine fuel line ⟨env, out⟩ = r' at hcut ⊢
  cases hcut with
  | @ok v env' bytes fits =>
    rw [Record.ofRun_ok]
    cases v with
    | none => exact .of_whole (by simpa [echo] using fits) (by simp [echo])
    | some v =>
      rcases say_cases (echo (some v)) env' (out.take bytes) diagnostics with
        ⟨hfits, hsay⟩ | hclosed
      · refine .of_whole (Sink.hasRoom_append fits hfits) (hsay.trans ?_)
        simp
      · exact .closed (hclosed.after fits)
  | @error halt env' bytes fits =>
    rcases hordinary halt _ rfl with ⟨failure, rfl⟩ | rfl
    · rw [Record.ofRun_raised]
      exact .of_whole fits (complain_eq hdiag _ _)
    · cases hend
  | @closed _ env' n bytes room exceeds written =>
    -- the program fails, which is told, and the conversation goes on
    obtain ⟨more, hmore⟩ := Record.output_ofRun r
    have houtput : (Record.ofRun r).output = bytes ++ more := by
      rw [hmore, written]
      simp [Sink.take, Sink.new]
    show Hears _ _ _ (complain _ _)
    rw [complain_eq hdiag]
    refine .full room ?_ ?_
    · rw [houtput, ByteArray.size_append]
      omega
    · rw [houtput, extract_append_of_le (Nat.le_of_lt exceeds)]

/-- So is what a blank line does, which is nothing. -/
theorem hears_turn (out : Sink) (hdiag : diagnostics.limit = none) (henv : env.Chained)
    {fuel : Nat} {line : String}
    (hend : (Text.isBlank line || ended (runAlone fuel env line)) = true) :
    Hears out diagnostics (recordLine fuel env line)
      (turn fuel line ⟨⟨env, out⟩, diagnostics⟩) := by
  rw [turn, recordLine]
  by_cases hblank : Text.isBlank line = true
  · rw [if_pos hblank, if_pos hblank]
    refine .of_whole (Sink.hasRoom_empty out) ?_
    rw [Sink.take_empty, Sink.take_empty]
    rfl
  · rw [if_neg hblank, if_neg hblank]
    exact hears_answer hdiag henv (by simpa [hblank] using hend)

/-! ## All lines -/

/-- A conversation whose sink takes no more ends at its first prompt. -/
theorem converse_of_full {console : Console} (hfull : console.session.out.room = some 0)
    (fuel : Nat) (lines : List (Except IoError String)) :
    converse fuel lines console = .error (.raised .closed) console := by
  obtain ⟨⟨env, out⟩, diagnostics⟩ := console
  have hprompt : prompt ⟨⟨env, out⟩, diagnostics⟩ =
      .error (.raised .closed) ⟨⟨env, out⟩, diagnostics⟩ := by
    have hwrite : Sink.write "> " out = .error .closed out := by
      rw [Sink.write_of_room_lt hfull (by decide), ByteArray.extract_eq_empty_iff.2 (by simp),
        Sink.take_empty]
    rw [prompt]
    refine bind_of_error ?_
    rw [say, onOutput, hwrite]
  cases lines with
  | nil => rw [converse, bind_of_error hprompt]
  | cons line rest =>
    cases line with
    | error e => rw [converse, bind_of_error hprompt]
    | ok text => rw [converse, bind_of_error hprompt]

/-- What is written to a sink that takes only a part of it leaves no room. -/
theorem room_of_cut {bytes : ByteArray} {n : Nat} (hroom : out.room = some n)
    (hover : n < bytes.size) : (out.take (bytes.extract 0 n)).room = some 0 := by
  rw [Sink.room_take, hroom, Option.map_some, ByteArray.size_extract]
  congr 1
  omega

/-- Texts add to a conversation what their record tells; then it goes on with the other lines.
Or the sink closes before all of that is written, and the conversation ends. -/
theorem converse_append (hflush : out.flushes = none) (hdiag : diagnostics.limit = none)
    (henv : env.Chained) {fuel : Nat} {texts : List String}
    (hend : allEnd fuel env texts = true) (tail : List (Except IoError String)) :
    (out.HasRoom (recordLines fuel env texts).output ∧
        converse fuel (texts.map .ok ++ tail) ⟨⟨env, out⟩, diagnostics⟩ =
          converse fuel tail ⟨⟨(recordLines fuel env texts).env,
            out.take (recordLines fuel env texts).output⟩,
            diagnostics.take (recordLines fuel env texts).messages⟩) ∨
      Closes out (recordLines fuel env texts).output
        (converse fuel (texts.map .ok ++ tail) ⟨⟨env, out⟩, diagnostics⟩) := by
  induction texts generalizing env out diagnostics with
  | nil => exact .inl ⟨Sink.hasRoom_empty out, by simp [recordLines]⟩
  | cons line rest ih =>
    rw [allEnd, Bool.and_eq_true] at hend
    obtain ⟨hline, hrest⟩ := hend
    have hnext := chained_recordLine henv fuel line
    rw [recordLines, List.map_cons, List.cons_append, converse]
    rcases prompt_cases hflush env diagnostics with ⟨hprompts, hprompt⟩ | hclosed
    · rw [bind_of_ok hprompt]
      have hturn := hears_turn (out.take "> ".toUTF8) hdiag henv hline
      generalize hr : turn fuel line ⟨⟨env, out.take "> ".toUTF8⟩, diagnostics⟩ = r at hturn
      cases hturn with
      | whole fits =>
        rw [bind_of_ok hr]
        have hflush : ((out.take "> ".toUTF8).take (recordLine fuel env line).output).flushes =
          none := hflush
        have hdiag : (diagnostics.take (recordLine fuel env line).messages).limit = none := hdiag
        rcases ih hflush hdiag hnext hrest with ⟨hfits, hlater⟩ | hclosed
        · refine .inl ⟨Sink.hasRoom_append hprompts (Sink.hasRoom_append fits hfits), ?_⟩
          rw [hlater]
          simp only [Sink.take_take, ByteArray.append_assoc]
        · exact .inr ((hclosed.after fits).after hprompts)
      | @full console n room exceeds hout =>
        -- the prompt for the next line finds that the sink is full
        rw [bind_of_ok hr, converse_of_full (by rw [hout, room_of_cut room exceeds])]
        exact .inr ((Closes.append ⟨n, console, room, exceeds, rfl, hout⟩ _).after hprompts)
      | closed hclosed =>
        rw [← hr] at hclosed
        exact .inr (((hclosed.bind _).append _).after hprompts)
    · exact .inr ((hclosed.bind _).append _)

/-- At the end of the input there is a last prompt and a line feed. -/
theorem converse_nil (hflush : out.flushes = none) (fuel : Nat) (env : Environment)
    (diagnostics : Sink) :
    (out.HasRoom "> \n".toUTF8 ∧ converse fuel [] ⟨⟨env, out⟩, diagnostics⟩ =
        .ok () ⟨⟨env, out.take "> \n".toUTF8⟩, diagnostics⟩) ∨
      Closes out "> \n".toUTF8 (converse fuel [] ⟨⟨env, out⟩, diagnostics⟩) := by
  have hbytes : "> \n".toUTF8 = "> ".toUTF8 ++ "\n".toUTF8 := by decide
  rw [converse, hbytes]
  rcases prompt_cases hflush env diagnostics with ⟨hprompts, hprompt⟩ | hclosed
  · rw [bind_of_ok hprompt]
    rcases say_cases "\n" env (out.take "> ".toUTF8) diagnostics with ⟨hfits, hsay⟩ | hclosed
    · exact .inl ⟨Sink.hasRoom_append hprompts hfits, by rw [hsay, Sink.take_take]⟩
    · exact .inr (hclosed.after hprompts)
  · exact .inr ((hclosed.bind _).append _)

/-- A conversation over texts writes what their record tells and comes to the end of the input,
or the sink closes. -/
theorem converse_texts (hflush : out.flushes = none) (hdiag : diagnostics.limit = none)
    (henv : env.Chained) {fuel : Nat} {texts : List String}
    (hend : allEnd fuel env texts = true) :
    let record := recordLines fuel env texts
    let transcript := record.output ++ "> \n".toUTF8
    (out.HasRoom transcript ∧ converse fuel (texts.map .ok) ⟨⟨env, out⟩, diagnostics⟩ =
        .ok () ⟨⟨record.env, out.take transcript⟩, diagnostics.take record.messages⟩) ∨
      Closes out transcript (converse fuel (texts.map .ok) ⟨⟨env, out⟩, diagnostics⟩) := by
  intro record transcript
  have htexts := converse_append hflush hdiag henv hend []
  rw [List.append_nil] at htexts
  rcases htexts with ⟨hfits, htexts⟩ | hclosed
  · have hflush : (out.take record.output).flushes = none := hflush
    rw [htexts]
    rcases converse_nil hflush fuel record.env (diagnostics.take record.messages) with
      ⟨hlast, hnil⟩ | hclosed
    · exact .inl ⟨Sink.hasRoom_append hfits hlast, by rw [hnil, Sink.take_take]⟩
    · exact .inr (hclosed.after hfits)
  · exact .inr (hclosed.append _)

/-- A line that cannot be read ends a conversation after one more prompt. -/
theorem converse_unreadable (hflush : out.flushes = none) (hlimit : out.limit = none)
    (hdiag : diagnostics.limit = none) (henv : env.Chained) {fuel : Nat} {texts : List String}
    (hend : allEnd fuel env texts = true) (e : IoError) (rest : List (Except IoError String)) :
    let record := recordLines fuel env texts
    converse fuel (texts.map .ok ++ .error e :: rest) ⟨⟨env, out⟩, diagnostics⟩ =
      .error (.raised e) ⟨⟨record.env, out.take (record.output ++ "> ".toUTF8)⟩,
        diagnostics.take record.messages⟩ := by
  intro record
  rcases converse_append hflush hdiag henv hend (.error e :: rest) with ⟨-, htexts⟩ | hclosed
  · have hflush : (out.take record.output).flushes = none := hflush
    rw [htexts, converse]
    rcases prompt_cases hflush record.env (diagnostics.take record.messages) with
      ⟨-, hprompt⟩ | hclosed
    · rw [bind_of_ok hprompt, Sink.take_take]
      rfl
    · exact absurd hclosed (not_closes hlimit)
  · exact absurd hclosed (not_closes hlimit)

end Console

/-- **A conversation is the fold of its lines, and no closed sink goes unnoticed.**  Let the
input be any bytes, and let the scopes form a chain, the output be flushed without failure and
all messages be taken.  The lines are the pieces between the line feeds.

* If all of them are texts that come to an end, the transcript is what their record tells, a
  prompt and a line feed.  A sink that takes everything gets exactly the transcript, and the
  conversation ends well with the environment and the messages of the record.  A sink that
  takes only `n` bytes more gets the first `n` bytes of the transcript; then the conversation
  ends in the same way if that is all of it, and fails if it is not.
* If a line cannot be read, the conversation fails with that error after the record of the
  lines before it and one more prompt. -/
theorem conversation_is_fold (fuel : Nat) (broken : Bool) (input : List UInt8)
    (console : Console) (hst : console.session.Chained)
    (hflush : console.session.out.flushes = none) (hdiag : console.diagnostics.limit = none) :
    let out := console.session.out
    let lines := Text.lines broken input
    let last := Console.converse fuel lines console
    lines = ((input.splitOn Text.lineFeed).dropLast.map fun piece =>
        Text.decode (Text.dropReturn piece)) ++
      Text.lastLine broken ((input.splitOn Text.lineFeed).getLastD []) ∧
    ∀ texts, Session.allEnd fuel console.session.env texts = true →
      let record := Session.recordLines fuel console.session.env texts
      (lines = texts.map .ok →
        let transcript := record.output ++ "> \n".toUTF8
        let whole : Console :=
          ⟨⟨record.env, out.take transcript⟩, console.diagnostics.take record.messages⟩
        (out.limit = none → last = .ok () whole) ∧
        ∀ n, out.room = some n →
          (final last).session.out = out.take (transcript.extract 0 (min n transcript.size)) ∧
          (transcript.size ≤ n → last = .ok () whole) ∧
          (n < transcript.size → outcome last = .error (.raised .closed))) ∧
      ∀ e rest, lines = texts.map .ok ++ .error e :: rest → out.limit = none →
        last = .error (.raised e) ⟨⟨record.env, out.take (record.output ++ "> ".toUTF8)⟩,
          console.diagnostics.take record.messages⟩ := by
  obtain ⟨⟨env, out⟩, diagnostics⟩ := console
  intro sink lines last
  refine ⟨Text.lines_eq_splitOn broken input, fun texts hend => ⟨?_, ?_⟩⟩
  · intro hlines transcript whole
    have hlast : last = Console.converse fuel (texts.map .ok) ⟨⟨env, out⟩, diagnostics⟩ := by
      rw [← hlines]
    rcases Console.converse_texts hflush hdiag hst hend with ⟨hfits, hwhole⟩ | hclosed
    · rw [← hlast] at hwhole
      refine ⟨fun _ => hwhole, fun n hroom => ⟨?_, fun _ => hwhole, fun hover => ?_⟩⟩
      · rw [hwhole, Nat.min_eq_right (hfits n hroom), ByteArray.extract_zero_size]
        rfl
      · exact absurd hover (Nat.not_lt.2 (hfits n hroom))
    · rw [← hlast] at hclosed
      obtain ⟨m, console, hm, hover, hr, hout⟩ := hclosed
      refine ⟨fun hlimit => ?_, fun n hroom => ?_⟩
      · exact absurd ⟨m, console, hm, hover, hr, hout⟩ (Console.not_closes hlimit)
      · obtain rfl : n = m := Option.some.inj (hroom.symm.trans hm)
        rw [hr]
        refine ⟨?_, fun hsize => absurd hover (Nat.not_lt.2 hsize), fun _ => rfl⟩
        rw [Nat.min_eq_left (Nat.le_of_lt hover)]
        exact hout
  · intro e rest hlines hlimit
    have hlast : last = Console.converse fuel (texts.map .ok ++ .error e :: rest)
        ⟨⟨env, out⟩, diagnostics⟩ := by
      rw [← hlines]
    rw [hlast]
    exact Console.converse_unreadable hflush hlimit hdiag hst hend e rest

/-- The sink closes within the output of the first line; the failure of that line is only told,
and the prompt for the second line ends the conversation. -/
theorem conversation_ends_after_cut_line :
    let console : Console := ⟨.new (.new (some 4) none), .new none none⟩
    let input := "print 12;\r\n3\n".toUTF8.data.toList
    let texts := ["print 12;", "3"]
    let last := Console.converse 0 (Text.lines false input) console
    console.session.Chained ∧ Text.lines false input = texts.map .ok ∧
      Session.allEnd 0 console.session.env texts = true ∧
      (Session.recordLines 0 console.session.env texts).output ++ "> \n".toUTF8 =
        "> 12\n> => 3\n> \n".toUTF8 ∧
      (final last).session.out.accepted = "> 12".toUTF8 ∧
      outcome last = .error (.raised .closed) := by
  intro console input texts last
  have hst : console.session.Chained := Environment.chained_new
  obtain ⟨hsplit, hfold⟩ := conversation_is_fold 0 false input console hst rfl rfl
  have hlines : Text.lines false input = texts.map .ok := by
    rw [hsplit]
    rfl
  have hend : Session.allEnd 0 console.session.env texts = true := by decide +kernel
  have htranscript : (Session.recordLines 0 console.session.env texts).output ++ "> \n".toUTF8 =
      "> 12\n> => 3\n> \n".toUTF8 := by
    decide +kernel
  obtain ⟨-, hcut⟩ := (hfold texts hend).1 hlines
  rw [htranscript] at hcut
  obtain ⟨hout, -, hclosed⟩ := hcut 4 rfl
  refine ⟨hst, hlines, hend, htranscript, ?_, hclosed (by decide)⟩
  rw [hout]
  decide

end Lox
