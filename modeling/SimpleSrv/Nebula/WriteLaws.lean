import Mathlib.Algebra.Ring.Nat
import Mathlib.Data.List.TakeDrop
import SimpleSrv.Nebula.Connection

/-! When the bytes a connection was asked to write are all taken by the kernel or still buffered. -/

namespace SimpleSrv.Nebula

/-- The number of bytes an answer takes. -/
def WriteAnswer.count : WriteAnswer → Nat
  | .accepted count => count
  | .failed _ => 0

/-- Answers after which the loop of a non-blocking write calls `write` again. -/
def WriteAnswer.Continues : WriteAnswer → Prop
  | .accepted _ => True
  | .failed errno => errno = eintr

/-- The socket would block at a moment when some of the first `left` bytes are still unsent. -/
def BlockedEarly (left : Nat) (answers : List WriteAnswer) : Prop :=
  -- Only counts and interruptions may come before the answer that gives up.
  ∃ before after, answers = before ++ .failed eagain :: after ∧
    (∀ answer ∈ before, answer.Continues) ∧ (before.map WriteAnswer.count).sum < left

/-- The answers under which `Connection::Write` hands its whole buffer to the kernel. -/
def SendsAll (nonBlocking : Bool) (size : Nat) (answers : List WriteAnswer) : Prop :=
  if nonBlocking then size < 2 ^ 31 ∧ ¬ BlockedEarly size answers
  else answers.head? = some (.accepted size)

/-- Without an answer no call has been told that it would block. -/
@[simp] theorem blockedEarly_nil (left : Nat) : ¬ BlockedEarly left [] := by
  -- There is no answer that could have said so.
  rintro ⟨before, after, same, _⟩
  simp at same

/-- A count brings the blocking answer closer by that many bytes. -/
theorem blockedEarly_accepted {left count : Nat} {rest : List WriteAnswer} (fits : count ≤ left) :
    BlockedEarly left (.accepted count :: rest) ↔ BlockedEarly (left - count) rest := by
  constructor
  · rintro ⟨before, after, same, continues, sum⟩
    -- The count is the first of the answers before the one that gives up.
    cases before with
    | nil => simp at same
    | cons head before =>
      simp only [List.cons_append, List.cons.injEq] at same
      obtain ⟨rfl, same⟩ := same
      refine ⟨before, after, same, fun answer member => continues answer (by simp [member]), ?_⟩
      simp only [List.map_cons, List.sum_cons, WriteAnswer.count] at sum
      omega
  · rintro ⟨before, after, same, continues, sum⟩
    -- The count is put back in front of the others.
    refine ⟨.accepted count :: before, after, by simp [same], ?_, ?_⟩
    · simpa [WriteAnswer.Continues] using continues
    · simp only [List.map_cons, List.sum_cons, WriteAnswer.count]
      omega

/-- An interruption changes neither the bytes left nor the later answers. -/
theorem blockedEarly_eintr {left : Nat} {rest : List WriteAnswer} :
    BlockedEarly left (.failed eintr :: rest) ↔ BlockedEarly left rest := by
  constructor
  · rintro ⟨before, after, same, continues, sum⟩
    -- The interruption is the first of the answers before the one that gives up.
    cases before with
    | nil => simp [eintr, eagain] at same
    | cons head before =>
      simp only [List.cons_append, List.cons.injEq] at same
      obtain ⟨rfl, same⟩ := same
      refine ⟨before, after, same, fun answer member => continues answer (by simp [member]), ?_⟩
      simpa [WriteAnswer.count] using sum
  · rintro ⟨before, after, same, continues, sum⟩
    refine ⟨.failed eintr :: before, after, by simp [same], ?_, ?_⟩
    on_goal 2 => simpa [WriteAnswer.count] using sum
    simpa [WriteAnswer.Continues] using continues

/-- The loop has been told to give up while it still had bytes to send. -/
theorem blockedEarly_eagain {left : Nat} {rest : List WriteAnswer} (unsent : 0 < left) :
    BlockedEarly left (.failed eagain :: rest) :=
  ⟨[], rest, rfl, by simp, by simpa using unsent⟩

/-- Nothing is early once every byte is sent. -/
@[simp] theorem blockedEarly_zero (answers : List WriteAnswer) : ¬ BlockedEarly 0 answers := by
  -- No sum of counts is below zero.
  rintro ⟨_, _, _, _, sum⟩
  omega

/-- The loop takes consecutive bytes, beginning where the earlier calls stopped. -/
theorem writeLoop_prefix {buf : List Byte} {dataSize dataLeft : Int} {state : ConnState}
    {answers : List WriteAnswer} {sent : Sent} (low : dataLeft ≤ dataSize)
    (ran : writeLoop buf dataSize dataLeft state answers = some sent) :
    ∃ count, count ≤ dataLeft.toNat ∧
      sent.taken = (buf.drop (dataSize - dataLeft).toNat).take count := by
  -- Each accepted count moves the starting offset of the remaining calls by the same amount.
  induction answers generalizing dataLeft sent with
  | nil =>
    simp only [writeLoop] at ran
    split at ran <;> cases ran
    exact ⟨0, by omega, by simp⟩
  | cons answer rest ih =>
    simp only [writeLoop] at ran
    split at ran
    · rename_i unsent
      cases answer with
      | failed errno =>
        simp only at ran
        split at ran
        · exact ih low ran
        · split at ran <;> cases ran <;> exact ⟨0, by omega, by simp⟩
      | accepted count =>
        simp only at ran
        split at ran
        · rename_i fits
          obtain ⟨later, ranLater, same⟩ := Option.map_eq_some_iff.mp ran
          subst same
          obtain ⟨more, bounded, taken⟩ := ih (by omega) ranLater
          refine ⟨count + more, by omega, ?_⟩
          have offset : (dataSize - (dataLeft - count)).toNat
              = (dataSize - dataLeft).toNat + count := by omega
          simp only [taken, offset, List.take_add, List.drop_drop]
        · cases ran
    · cases ran
      exact ⟨0, by omega, by simp⟩

/-- The loop of a connection that stays connected sends everything unless it is blocked early. -/
theorem writeLoop_complete_iff {buf : List Byte} {dataSize dataLeft : Int}
    {answers : List WriteAnswer} {sent : Sent} (low : dataLeft ≤ dataSize)
    (high : dataSize ≤ buf.length)
    (ran : writeLoop buf dataSize dataLeft .connected answers = some sent)
    (still : sent.state = .connected) :
    sent.taken.length = dataLeft.toNat ↔ ¬ BlockedEarly dataLeft.toNat answers := by
  -- The induction is on the answers, with the bytes that are left generalised.
  induction answers generalizing dataLeft sent with
  | nil =>
    simp only [writeLoop] at ran
    split at ran <;> cases ran
    simp only [List.length_nil, blockedEarly_nil, not_false_eq_true, iff_true]
    omega
  | cons answer rest ih =>
    simp only [writeLoop] at ran
    split at ran
    · rename_i unsent
      cases answer with
      | failed errno =>
        simp only at ran
        split at ran
        · rename_i interrupted
          rw [interrupted, blockedEarly_eintr]
          exact ih low ran still
        · split at ran
          · rename_i blocked
            cases ran
            -- Giving up with bytes left is exactly the early answer.
            have early := @blockedEarly_eagain dataLeft.toNat rest (by omega)
            simp only [blocked, early, not_true_eq_false, List.length_nil, iff_false]
            omega
          · cases ran
            cases still
      | accepted count =>
        simp only at ran
        split at ran
        · rename_i fits
          obtain ⟨later, ranLater, same⟩ := Option.map_eq_some_iff.mp ran
          subst same
          have rest := ih (by omega) ranLater still
          -- The bytes of this call are all there, as the count is no larger than what is left.
          have chunk : ((buf.drop (dataSize - dataLeft).toNat).take count).length = count := by
            simp only [List.length_take, List.length_drop]
            omega
          have remaining : (dataLeft - count).toNat = dataLeft.toNat - count := by omega
          rw [remaining] at rest
          rw [blockedEarly_accepted (by omega), ← rest]
          simp only [List.length_append, chunk]
          omega
        · cases ran
    · cases ran
      -- All is sent before any further answer.
      rename_i sentAll
      have none : dataLeft.toNat = 0 := by omega
      simp [none]

/-- A non-blocking write that stays connected sends its buffer exactly when nothing stops it. -/
theorem writeNonBlocking_complete_iff {conn : Connection} {answers : List WriteAnswer} {sent : Sent}
    (open_ : conn.state = .connected) (ran : writeNonBlocking conn answers = some sent)
    (still : sent.state = .connected) :
    sent.taken = conn.sendBuffer.buf ↔ SendsAll true conn.sendBuffer.size answers := by
  simp only [writeNonBlocking, open_, Buffer.toStr, Buffer.size] at ran
  simp only [SendsAll, if_true, Buffer.size]
  generalize conn.sendBuffer.buf = buf at ran ⊢
  -- What was taken is a prefix of the buffer, so only its length decides.
  obtain ⟨count, bounded, taken⟩ := writeLoop_prefix (Int.le_refl _) ran
  have complete := writeLoop_complete_iff (Int.le_refl _) (toInt_natCast_le _) ran still
  simp only [Int.sub_self, Int.toNat_zero, List.drop_zero] at taken
  have whole : sent.taken = buf ↔ sent.taken.length = buf.length := by
    constructor
    · exact congrArg List.length
    · intro length
      rw [taken, List.length_take] at length
      rw [taken, List.take_of_length_le (by omega)]
  rw [whole]
  by_cases fits : buf.length < 2 ^ 31
  · -- The count of the loop is the length of the buffer.
    have same := (toInt_natCast_eq_iff buf.length).mpr fits
    rw [same, Int.toNat_natCast] at complete
    rw [complete]
    exact (and_iff_right fits).symm
  · -- A longer buffer is truncated to a smaller count before the first call.
    have smaller : (toInt buf.length).toNat < buf.length := by
      have below := toInt_natCast_le buf.length
      have other := mt (toInt_natCast_eq_iff buf.length).mp fits
      omega
    have short : sent.taken.length ≤ (toInt buf.length).toNat := by
      rw [taken, List.length_take]
      omega
    simp only [fits, false_and, iff_false]
    omega

/-- A blocking write that stays connected sends its buffer exactly when one call takes it all. -/
theorem writeBlocking_complete_iff {conn : Connection} {answers : List WriteAnswer} {sent : Sent}
    (ran : writeBlocking conn answers = some sent) (still : sent.state = .connected) :
    sent.taken = conn.sendBuffer.buf ↔ SendsAll false conn.sendBuffer.size answers := by
  -- There is one call of the kernel, with one answer.
  cases answers with
  | nil => cases ran
  | cons answer rest =>
    cases answer with
    | failed errno =>
      cases ran
      cases still
    | accepted count =>
      simp only [writeBlocking, Buffer.toStr] at ran
      by_cases fits : count ≤ conn.sendBuffer.size
      · rw [if_pos fits] at ran
        cases ran
        -- Bytes that were not taken are lost with the buffer.
        unfold Buffer.size at fits
        simp only [SendsAll, Buffer.size, List.head?_cons, Option.some.injEq,
          WriteAnswer.accepted.injEq, Bool.false_eq_true, if_false, List.take_eq_self_iff]
        omega
      · rw [if_neg fits] at ran
        cases ran

/--
A write that leaves the connection connected keeps every byte exactly under `SendsAll`.

The bytes the kernel took are followed by what the send buffer still holds.
-/
theorem write_keeps_bytes_iff {conn after : Connection} {nonBlocking : Bool}
    {answers : List WriteAnswer} {taken : List Byte}
    (ran : conn.write nonBlocking answers = some (after, taken))
    (still : after.state = .connected) :
    taken ++ after.sendBuffer.buf = conn.sendBuffer.buf ↔
      SendsAll nonBlocking conn.sendBuffer.size answers := by
  -- A connection that is not open writes nothing at all.
  unfold Connection.write at ran
  split at ran
  · rename_i open_
    obtain ⟨sent, sending, same⟩ := Option.map_eq_some_iff.mp ran
    cases same
    -- The buffer is cleared on every path, so the bytes taken have to be all of them.
    simp only [Buffer.clear, List.append_nil]
    cases nonBlocking with
    | true => exact writeNonBlocking_complete_iff open_ sending still
    | false => exact writeBlocking_complete_iff sending still
  · cases ran

/-- A three-byte write taken in two parts, around an interruption. -/
theorem write_keeps_bytes_in_two_parts :
    (⟨.connected, ⟨[]⟩, ⟨[1, 2, 3]⟩⟩ : Connection).write true
        [.accepted 2, .failed eintr, .accepted 1] = some (⟨.connected, ⟨[]⟩, ⟨[]⟩⟩, [1, 2, 3]) ∧
      (([1, 2, 3] : List Byte) ++ [] = [1, 2, 3] ↔
        SendsAll true 3 [.accepted 2, .failed eintr, .accepted 1]) := by
  -- The answers add up to the three bytes.
  have ran : (⟨.connected, ⟨[]⟩, ⟨[1, 2, 3]⟩⟩ : Connection).write true
      [.accepted 2, .failed eintr, .accepted 1] = some (⟨.connected, ⟨[]⟩, ⟨[]⟩⟩, [1, 2, 3]) := by
    decide
  exact ⟨ran, write_keeps_bytes_iff ran rfl⟩

/-- A socket that would block after one of two bytes makes the second byte disappear. -/
theorem write_drops_blocked_byte :
    ∃ (conn after : Connection) (answers : List WriteAnswer) (taken : List Byte),
      conn.write true answers = some (after, taken) ∧ after.state = .connected ∧
        taken ++ after.sendBuffer.buf ≠ conn.sendBuffer.buf :=
  ⟨⟨.connected, ⟨[]⟩, ⟨[1, 2]⟩⟩, ⟨.connected, ⟨[]⟩, ⟨[]⟩⟩, [.accepted 1, .failed eagain], [1],
    by decide, rfl, by decide⟩

end SimpleSrv.Nebula
