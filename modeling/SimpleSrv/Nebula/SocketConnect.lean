import Mathlib.Data.List.Basic
import SimpleSrv.Lib.Errno

/-! `Socket::Connect`, which repeats a connection attempt until the kernel has settled it. -/

namespace SimpleSrv

namespace Answer

/-- The attempt to connect goes on in the background. -/
def Pending (answer : Answer) : Prop :=
  answer.value = -1 ∧ (answer.errno = einprogress ∨ answer.errno = ealready)

/-- The socket has been connected, by this call or by an earlier one. -/
def Established (answer : Answer) : Prop :=
  answer.value = 0 ∨ (answer.value = -1 ∧ answer.errno = eisconn)

/-- The attempt to connect has failed. -/
def Refused (answer : Answer) : Prop :=
  answer.value = -1 ∧ answer.errno ≠ einprogress ∧ answer.errno ≠ ealready ∧
    answer.errno ≠ eisconn

end Answer

namespace Nebula

/-- `O_NONBLOCK`. -/
def oNonblock : BitVec 32 := 0x800#32

/-- How far a call of `Socket::Connect` has come with the answers that the kernel has given. -/
inductive Connecting where
  | returned
  /-- `ErrorIf` has ended the process, with this `errno`. -/
  | exited (errno : Int)
  /-- It is about to call `connect` once more. -/
  | polling
  deriving DecidableEq, Repr

/-- The loop of `Socket::Connect`, given what its calls of `connect` answer. -/
def connectLoop : List Answer → Connecting
  | [] => .polling
  | answer :: rest =>
    if answer.value = 0 then .returned
    else if answer.value = -1 ∧ answer.errno = einprogress then connectLoop rest
    else if answer.value = -1 then .exited answer.errno
    else connectLoop rest

/-- `Socket::Connect`, given the flags of its descriptor and what the kernel answers. -/
def socketConnect (flags : BitVec 32) (answers : List Answer) : Connecting :=
  if flags &&& oNonblock ≠ 0 then connectLoop answers
  else
    match answers with
    | [] => .polling
    | answer :: _ => if answer.value = -1 then .exited answer.errno else .returned

/-- What a kernel answers to an attempt that is repeated on a socket in non-blocking mode. -/
structure Attempt where
  first : Answer
  middle : List Answer
  last : Answer
  /-- The first call starts the attempt. -/
  begins : first.value = -1 ∧ first.errno = einprogress
  pending : ∀ answer ∈ middle, answer.Pending
  /-- The last call is the first one that finds it settled. -/
  settled : last.Established ∨ last.Refused

namespace Attempt

/-- All the answers, in the order of the calls. -/
def answers (attempt : Attempt) : List Answer := attempt.first :: (attempt.middle ++ [attempt.last])

/-- The call returns on a socket that is connected, and the process ends on an error alone. -/
structure Completes (flags : BitVec 32) (attempt : Attempt) : Prop where
  returns : attempt.last.Established → socketConnect flags attempt.answers = .returned
  exits : ∀ errno, socketConnect flags attempt.answers = .exited errno →
    attempt.last.Refused ∧ errno = attempt.last.errno
  ends : socketConnect flags attempt.answers ≠ .polling

/-- A pending attempt is always reported as `EINPROGRESS`, and its success never as `EISCONN`. -/
def OnlyInProgress (attempt : Attempt) : Prop :=
  (∀ answer ∈ attempt.middle, answer.errno ≠ ealready) ∧
    (attempt.last.value = -1 → attempt.last.errno ≠ eisconn)

end Attempt

/-- The loop goes past all the answers that report a new attempt. -/
theorem connectLoop_append (before rest : List Answer)
    (started : ∀ answer ∈ before, answer.value = -1 ∧ answer.errno = einprogress) :
    connectLoop (before ++ rest) = connectLoop rest := by
  -- By induction on the answers, each of which takes the same branch.
  induction before with
  | nil => rfl
  | cons answer before ih =>
    obtain ⟨failed, errno⟩ := started answer (by simp)
    have below := ih fun other member => started other (by simp [member])
    rw [List.cons_append, connectLoop, if_neg (by omega), if_pos ⟨failed, errno⟩, below]

/-- The loop ends the process at an answer with any other error. -/
theorem connectLoop_exits {answer : Answer} {rest : List Answer} (failed : answer.value = -1)
    (errno : answer.errno ≠ einprogress) :
    connectLoop (answer :: rest) = .exited answer.errno := by
  -- The error is neither a success nor the one that the loop continues on.
  rw [connectLoop, if_neg (by omega), if_neg fun started => errno started.2, if_pos failed]

namespace Attempt

variable {flags : BitVec 32} {attempt : Attempt}

/-- In non-blocking mode, the loop starts with the answer after the first one. -/
theorem socketConnect_answers (nonblocking : flags &&& oNonblock ≠ 0) :
    socketConnect flags attempt.answers = connectLoop (attempt.middle ++ [attempt.last]) := by
  unfold socketConnect
  rw [if_pos nonblocking]
  -- The first answer is that the attempt has been started.
  apply connectLoop_append [attempt.first]
  simpa using attempt.begins

/-- An answer that the attempt still goes on, under its other name, ends the process. -/
theorem exits_of_ealready (nonblocking : flags &&& oNonblock ≠ 0)
    (noticed : ∃ answer ∈ attempt.middle, answer.errno = ealready) :
    socketConnect flags attempt.answers = .exited ealready := by
  rw [socketConnect_answers nonblocking]
  -- The first such answer is looked for, so that only new attempts come before it.
  have pending := attempt.pending
  generalize attempt.middle = middle at noticed pending
  induction middle with
  | nil => simp at noticed
  | cons answer rest ih =>
    obtain ⟨failed, errno | errno⟩ := pending answer (by simp)
    · have later : ∃ other ∈ rest, other.errno = ealready := by
        obtain ⟨other, member, same⟩ := noticed
        rcases List.mem_cons.mp member with rfl | member
        · rw [errno] at same
          exact absurd same (by decide)
        · exact ⟨other, member, same⟩
      have skipped := connectLoop_append [answer] (rest ++ [attempt.last])
        (by simpa using ⟨failed, errno⟩)
      exact skipped.trans (ih later fun other member => pending other (by simp [member]))
    · rw [List.cons_append, connectLoop_exits failed (by rw [errno]; decide), errno]

/-- Where each answer before the last one reports a new attempt, the last one decides. -/
theorem decided_by_last (nonblocking : flags &&& oNonblock ≠ 0)
    (unnoticed : ∀ answer ∈ attempt.middle, answer.errno ≠ ealready) :
    socketConnect flags attempt.answers = connectLoop [attempt.last] := by
  rw [socketConnect_answers nonblocking]
  apply connectLoop_append
  intro answer member
  -- Of the two errors of a pending attempt only one is left.
  obtain ⟨failed, errno | errno⟩ := attempt.pending answer member
  · exact ⟨failed, errno⟩
  · exact absurd errno (unnoticed answer member)

/--
A call in non-blocking mode completes as it should exactly if the kernel never reports that an
attempt goes on already, nor that the socket is connected already.
-/
theorem connect_completes_iff (nonblocking : flags &&& oNonblock ≠ 0) :
    attempt.Completes flags ↔ attempt.OnlyInProgress := by
  -- Both directions look at the answer that decides what the loop does.
  constructor
  · intro completes
    have unnoticed : ∀ answer ∈ attempt.middle, answer.errno ≠ ealready := by
      -- Otherwise the process would have ended with an error that is not refused.
      intro answer member errno
      have exited := exits_of_ealready nonblocking ⟨answer, member, errno⟩
      obtain ⟨refused, same⟩ := completes.exits ealready exited
      exact refused.2.2.1 same.symm
    refine ⟨unnoticed, fun failed errno => ?_⟩
    have returned := completes.returns (.inr ⟨failed, errno⟩)
    -- The last answer alone decides, and its error ends the process.
    rw [decided_by_last nonblocking unnoticed, connectLoop_exits failed (by rw [errno]; decide)]
      at returned
    cases returned
  · rintro ⟨unnoticed, accepted⟩
    have decided := decided_by_last nonblocking unnoticed
    -- The last answer is a success or an error that neither branch of the loop excuses.
    rcases attempt.settled with (success | ⟨failed, errno⟩) | refused
    · have returned : socketConnect flags attempt.answers = .returned := by
        rw [decided, connectLoop, if_pos success]
      refine ⟨fun _ => returned, fun errno exited => ?_, ?_⟩
      · rw [returned] at exited
        cases exited
      · rw [returned]
        exact Connecting.noConfusion
    · exact absurd errno (accepted failed)
    · have exited : socketConnect flags attempt.answers = .exited attempt.last.errno := by
        rw [decided, connectLoop_exits refused.1 refused.2.1]
      refine ⟨fun established => ?_, fun errno same => ?_, ?_⟩
      · rcases established with success | ⟨_, errno⟩
        · exact absurd (success.symm.trans refused.1) (by decide)
        · exact absurd errno refused.2.2.2
      · rw [exited] at same
        exact ⟨refused, (Connecting.exited.inj same).symm⟩
      · rw [exited]
        exact Connecting.noConfusion

/-- An attempt that the kernel reports twice as started, and then as successful. -/
def started : Attempt where
  first := ⟨-1, einprogress⟩
  middle := [⟨-1, einprogress⟩]
  last := ⟨0, 0⟩
  begins := ⟨rfl, rfl⟩
  pending := by simp [Answer.Pending]
  settled := .inl (.inl rfl)

/-- The call for that attempt returns on a socket that is connected. -/
theorem started_completes : started.Completes oNonblock := by
  apply (connect_completes_iff (by decide)).mpr
  exact ⟨by simp [started, einprogress, ealready], by simp [started]⟩

/-- An attempt that is reported once as going on already, and then as successful. -/
def goesOn : Attempt where
  first := ⟨-1, einprogress⟩
  middle := [⟨-1, ealready⟩]
  last := ⟨0, 0⟩
  begins := ⟨rfl, rfl⟩
  pending := by simp [Answer.Pending]
  settled := .inl (.inl rfl)

/-- The process ends although the connection is established with the next answer. -/
theorem goesOn_exits : goesOn.last.Established ∧
    socketConnect oNonblock goesOn.answers = .exited ealready ∧
      ¬ goesOn.Completes oNonblock := by
  have exited : socketConnect oNonblock goesOn.answers = .exited ealready := by decide
  refine ⟨.inl rfl, exited, fun completes => ?_⟩
  -- The errno that has ended the process does not mean that the attempt was refused.
  exact absurd (completes.exits ealready exited).2 (by decide)

end Attempt

end Nebula

end SimpleSrv
