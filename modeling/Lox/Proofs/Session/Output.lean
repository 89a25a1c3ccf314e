import Lox.Proofs.Session.Task

/-!
# Source texts and a sink that closes

A source text is run twice, once with a sink that takes everything and once with one that
takes only so many bytes more.

* `State.withRoom` — a state with a sink that takes so many bytes more.
* `limited_sink_truncates` — the second run writes the beginning of what the first one
  writes, and fails exactly if that is not all of it.
-/

namespace Lox

open Run State

/-- The state with a sink that takes `room` bytes more, or all bytes if no number is given. -/
def State.withRoom (st : State) (room : Option Nat) : State :=
  ⟨st.env, { st.out with limit := room.map (st.out.accepted.size + ·) }⟩

theorem State.room_withRoom (st : State) (room : Option Nat) :
    (st.withRoom room).out.room = room := by
  cases room with
  | none => rfl
  | some n => simp [withRoom, Sink.room]

/-- **A sink that closes cuts the output, and the run says so.**  Let any source text be run
from any state in which the scopes form a chain.  If the sink takes only `n` bytes more, it
takes the first `n` bytes of what the run writes without a limit.  If these are all, the
result and the environment are the same as without a limit; otherwise the run fails because
the output could not be written, and as many scopes are open as before. -/
theorem limited_sink_truncates (fuel : Nat) (source : String) (st : State) (hst : st.Chained)
    (n : Nat) :
    let free := Session.run fuel source (st.withRoom none)
    let cut := Session.run fuel source (st.withRoom (some n))
    ∃ output : ByteArray,
      (final free).out.accepted = st.out.accepted ++ output ∧
      (final cut).out.accepted = st.out.accepted ++ output.extract 0 (min n output.size) ∧
      (output.size ≤ n → outcome cut = outcome free ∧ (final cut).env = (final free).env) ∧
      (n < output.size → outcome cut = .error (.raised (.runtime (.output .closed))) ∧
        (final cut).env.depth = st.env.depth) := by
  intro free cut
  obtain ⟨task, -, htask⟩ := Session.run_eq_task source
  have hchain : st.env.SameChain (final cut).env := by
    have h := task.sameChain fuel (st.withRoom (some n)) hst
    rwa [← htask] at h
  have hcut : Cut (.runtime RuntimeError.closed) (st.withRoom none).out
      (st.withRoom (some n)).out free cut := by
    have h := Session.truncates_task task fuel (st.withRoom none).out (st.withRoom (some n)).out
      st.env rfl
    rwa [← htask] at h
  have hroom := st.room_withRoom (some n)
  generalize free = r at hcut ⊢
  generalize cut = r' at hcut hchain ⊢
  cases hcut with
  | @ok a env output fits =>
    have hsize : output.size ≤ n := fits n hroom
    refine ⟨output, rfl, ?_, fun _ => ⟨rfl, rfl⟩, fun hover => by omega⟩
    rw [Nat.min_eq_right hsize, ByteArray.extract_zero_size]
    rfl
  | @error halt env output fits =>
    have hsize : output.size ≤ n := fits n hroom
    refine ⟨output, rfl, ?_, fun _ => ⟨rfl, rfl⟩, fun hover => by omega⟩
    rw [Nat.min_eq_right hsize, ByteArray.extract_zero_size]
    rfl
  | @closed _ env m output room exceeds written =>
    obtain rfl : n = m := Option.some.inj (hroom.symm.trans room)
    refine ⟨output, by rw [written]; rfl, ?_, fun hsize => by omega, fun _ => ⟨rfl, hchain.depth⟩⟩
    rw [Nat.min_eq_left (Nat.le_of_lt exceeds)]
    rfl

/-- The second line of the output is cut within a block. -/
theorem block_is_cut_in_second_line :
    let st : State := .new (.new none none)
    let source := "\x7b print \"ab\"; print \"cd\"; \x7d"
    let cut := Session.run 0 source (st.withRoom (some 4))
    st.Chained ∧ (final cut).out.accepted = "ab\nc".toUTF8 ∧
      outcome cut = .error (.raised (.runtime (.output .closed))) ∧ (final cut).env.depth = 1 := by
  intro st source cut
  have hst : st.Chained := Environment.chained_new
  obtain ⟨output, hfree, hcut, -, hover⟩ := limited_sink_truncates 0 source st hst 4
  have hall : (final (Session.run 0 source (st.withRoom none))).out.accepted =
      "ab\ncd\n".toUTF8 := by
    decide +kernel
  obtain rfl : output = "ab\ncd\n".toUTF8 := by
    rw [hall] at hfree
    simpa [st, State.new, Sink.new] using hfree.symm
  obtain ⟨hend, hdepth⟩ := hover (by decide)
  refine ⟨hst, ?_, hend, hdepth⟩
  rw [hcut]
  decide

end Lox
