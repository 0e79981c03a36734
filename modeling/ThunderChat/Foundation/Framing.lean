import Mathlib.Data.List.Basic
import Mathlib.Data.List.Infix
import Mathlib.Algebra.Order.Sub.Basic

/-!
Streams of encoded messages.

A list of messages is sent as the concatenation of their encodings. After `n`
elements of that stream have arrived, `completed` are the messages that have
arrived whole and `pending` the elements of the next one. A receiver that keeps
only the pending elements can forget the completed messages: `completed_split`
describes the arrival of more elements from the remaining messages alone.
-/

namespace ThunderChat.Framing

variable {α β : Type} (encode : β → List α)

/-- The stream a list of messages is sent as. -/
def stream (msgs : List β) : List α := msgs.flatMap encode

/-- The messages whose last element is among the first `n` of the stream. -/
def completed : List β → Nat → List β
  | [], _ => []
  | m :: rest, n =>
      if (encode m).length ≤ n then m :: completed rest (n - (encode m).length) else []

/-- The elements among the first `n` of the stream that belong to a message which
has not arrived whole. -/
def pending (msgs : List β) (n : Nat) : List α :=
  ((stream encode msgs).take n).drop (stream encode (completed encode msgs n)).length

variable {encode} {msgs : List β} {m : β} {n : Nat}

@[simp] theorem stream_nil : stream encode [] = [] := rfl

@[simp] theorem stream_cons : stream encode (m :: msgs) = encode m ++ stream encode msgs := rfl

@[simp] theorem stream_append (ms ms' : List β) :
    stream encode (ms ++ ms') = stream encode ms ++ stream encode ms' :=
  List.flatMap_append

@[simp] theorem completed_nil : completed encode [] n = [] := rfl

theorem completed_cons_of_le (h : (encode m).length ≤ n) :
    completed encode (m :: msgs) n = m :: completed encode msgs (n - (encode m).length) :=
  if_pos h

theorem completed_cons_of_lt (h : n < (encode m).length) : completed encode (m :: msgs) n = [] :=
  if_neg (Nat.not_le.mpr h)

/-- A message that has arrived whole leaves nothing pending. -/
theorem pending_cons_of_le (h : (encode m).length ≤ n) :
    pending encode (m :: msgs) n = pending encode msgs (n - (encode m).length) := by
  rw [pending, pending, completed_cons_of_le h, stream_cons, stream_cons, List.take_append,
    List.take_of_length_le h, List.length_append, List.drop_append,
    List.drop_of_length_le (Nat.le_add_right _ _), Nat.add_sub_cancel_left, List.nil_append]

theorem pending_cons_of_lt (h : n < (encode m).length) :
    pending encode (m :: msgs) n = (encode m).take n := by
  rw [pending, completed_cons_of_lt h, stream_nil, List.length_nil, List.drop_zero, stream_cons,
    List.take_append_of_le_length (Nat.le_of_lt h)]

variable (encode) in
/-- Cut the messages behind the completed ones: what arrives later is decided by
the remaining messages `todo` and the number `r` of their elements that have
already arrived. -/
theorem completed_split (msgs : List β) (n : Nat) : ∃ todo r,
    msgs = completed encode msgs n ++ todo ∧
      n = (stream encode (completed encode msgs n)).length + r ∧
      completed encode todo r = [] ∧
      ∀ j, completed encode msgs (n + j)
        = completed encode msgs n ++ completed encode todo (r + j) := by
  induction msgs generalizing n with
  | nil => exact ⟨[], n, rfl, by simp, rfl, fun _ => rfl⟩
  | cons m rest ih =>
      by_cases h : (encode m).length ≤ n
      · obtain ⟨todo, r, hmsgs, hn, hdone, hmore⟩ := ih (n - (encode m).length)
        refine ⟨todo, r, ?_, ?_, hdone, fun j => ?_⟩
        · rw [completed_cons_of_le h, List.cons_append, ← hmsgs]
        · rw [completed_cons_of_le h, stream_cons, List.length_append]
          omega
        · rw [completed_cons_of_le h, completed_cons_of_le (by omega), List.cons_append, ← hmore]
          congr 2
          omega
      · have hnil : completed encode (m :: rest) n = [] :=
          completed_cons_of_lt (Nat.not_le.mp h)
        refine ⟨m :: rest, n, ?_, ?_, hnil, fun j => ?_⟩ <;> simp [hnil]

variable (encode) in
/-- The arrival of `arrived` behind the first `n` elements: with the pending ones it
is a prefix of the stream of the remaining messages, whose completion completes
the messages. -/
theorem pending_append (msgs : List β) {arrived : List α}
    (hn : n + arrived.length ≤ (stream encode msgs).length)
    (harrived : (stream encode msgs).take (n + arrived.length)
      = (stream encode msgs).take n ++ arrived) : ∃ todo r,
    r ≤ (stream encode todo).length ∧
      pending encode msgs n ++ arrived = (stream encode todo).take r ∧
      completed encode msgs (n + arrived.length)
        = completed encode msgs n ++ completed encode todo r ∧
      pending encode msgs (n + arrived.length) = pending encode todo r := by
  obtain ⟨todo, r, hmsgs, hsplit, hdone, hmore⟩ := completed_split encode msgs n
  have hstream : stream encode msgs
      = stream encode (completed encode msgs n) ++ stream encode todo := by
    rw [← stream_append, ← hmsgs]
  have htake : ∀ j, (stream encode msgs).take (n + j)
      = stream encode (completed encode msgs n) ++ (stream encode todo).take (r + j) := by
    intro j
    have hnj : n + j = (stream encode (completed encode msgs n)).length + (r + j) := by omega
    conv_lhs => rw [hstream, hnj, List.take_length_add_append]
  have hpending : ∀ j, pending encode msgs (n + j) = pending encode todo (r + j) := by
    intro j
    rw [pending, htake, hmore, stream_append, List.length_append, List.drop_append,
      List.drop_of_length_le (Nat.le_add_right _ _), Nat.add_sub_cancel_left, List.nil_append,
      pending]
  refine ⟨todo, r + arrived.length, ?_, ?_, hmore _, hpending _⟩
  · have hlen := congrArg List.length hstream
    rw [List.length_append] at hlen
    omega
  · have hnow := htake 0
    rw [Nat.add_zero, Nat.add_zero] at hnow
    rw [htake, hnow, List.append_assoc] at harrived
    have hnone : pending encode msgs n = (stream encode todo).take r := by
      simpa [pending, hdone] using hpending 0
    rw [hnone, ← List.append_cancel_left harrived]

end ThunderChat.Framing
