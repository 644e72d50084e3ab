import Mathlib.Data.List.TakeWhile
import SimpleSrv.Nebula.Connection

/-! When the bytes that a connection reads all reach its buffer. -/

namespace SimpleSrv.Nebula

/-- The bytes that an answer brings. -/
def ReadAnswer.bytes : ReadAnswer → List Byte
  | .received bytes => bytes
  | .failed _ => []

/-- Answers after which the loop of a non-blocking read calls `read` again. -/
def ReadAnswer.Continues : ReadAnswer → Prop
  -- A chunk is never empty, and it fits into the buffer of the call.
  | .received bytes => 0 < bytes.length ∧ bytes.length ≤ readSize
  | .failed errno => errno = eintr

/-- Answers that end the loop: the end of the input, a socket that would block, or an error. -/
def ReadAnswer.Ends : ReadAnswer → Prop
  | .received bytes => bytes = []
  | .failed errno => errno ≠ eintr

instance (answer : ReadAnswer) : Decidable answer.Continues := by
  cases answer <;> unfold ReadAnswer.Continues <;> infer_instance

instance (answer : ReadAnswer) : Decidable answer.Ends := by
  cases answer <;> unfold ReadAnswer.Ends <;> infer_instance

/-- `Buffer::Append` adds the bytes of its argument before the first zero. -/
theorem Buffer.append_eq (bytes padding : List Byte) :
    ∀ buffer : Buffer, buffer.append (bytes ++ padding) bytes.length =
      ⟨buffer.buf ++ bytes.takeWhile (· ≠ 0)⟩ := by
  -- The recursion is that of the copy loop, which stops at a zero or at the end of the bytes.
  induction bytes with
  | nil =>
    intro buffer
    simp [Buffer.append]
  | cons byte rest ih =>
    intro buffer
    rw [List.cons_append, List.length_cons, Buffer.append]
    by_cases zero : byte = 0
    · simp [zero]
    · rw [if_neg zero, ih]
      simp [zero]

/-- Cutting each chunk at its first zero keeps everything exactly when there is no zero. -/
theorem flatMap_takeWhile_eq_iff (chunks : List (List Byte)) :
    chunks.flatMap (List.takeWhile (· ≠ 0)) = chunks.flatten ↔ 0 ∉ chunks.flatten := by
  constructor
  · -- Whatever survives the cutting is not zero.
    intro same zero
    rw [← same] at zero
    obtain ⟨chunk, _, member⟩ := List.mem_flatMap.mp zero
    have kept := List.mem_takeWhile_imp member
    simp at kept
  · intro clean
    have whole : ∀ chunk ∈ chunks, chunk.takeWhile (· ≠ 0) = chunk := by
      intro chunk member
      apply List.takeWhile_eq_self_iff.mpr
      intro byte inside
      have apart : byte ≠ 0 := by
        rintro rfl
        exact clean (List.mem_flatten.mpr ⟨chunk, member, inside⟩)
      simpa using apart
    rw [List.flatMap_congr whole, List.flatMap_id']

/-- The loop returns at its first ending answer, with each chunk cut at its first zero. -/
theorem readLoop_eq {before : List ReadAnswer} {last : ReadAnswer}
    (continues : ∀ answer ∈ before, answer.Continues) (ends : last.Ends) :
    ∀ conn : Connection, ∃ after, readLoop conn (before ++ [last]) = some after ∧
      after.readBuffer.buf = conn.readBuffer.buf ++
        (before.map ReadAnswer.bytes).flatMap (List.takeWhile (· ≠ 0)) := by
  -- The induction is on the answers that keep the loop going.
  induction before with
  | nil =>
    intro conn
    cases last with
    | received bytes =>
      -- Without a byte the peer has closed, and the loop returns.
      have empty : bytes = [] := ends
      exact ⟨{ conn with state := .closed }, by simp [readLoop, empty], by simp⟩
    | failed errno =>
      -- Any error except an interruption ends the loop, with the connection open or closed.
      have final : errno ≠ eintr := ends
      rw [List.nil_append, readLoop, if_neg final]
      split
      · exact ⟨conn, rfl, by simp⟩
      · exact ⟨{ conn with state := .closed }, rfl, by simp⟩
  | cons answer rest ih =>
    intro conn
    have first := continues answer List.mem_cons_self
    have others := ih fun later member => continues later (List.mem_cons_of_mem _ member)
    cases answer with
    | received bytes =>
      obtain ⟨filled, fits⟩ := first
      -- The chunk is at the front of the buffer, whose rest is what `bzero` has left.
      let buf := bytes ++ List.replicate (readSize - bytes.length) 0
      obtain ⟨after, ran, same⟩ := others
        { conn with readBuffer := conn.readBuffer.append buf bytes.length }
      refine ⟨after, ?_, ?_⟩
      · rw [List.cons_append, readLoop, if_pos fits, if_pos filled]
        exact ran
      · rw [same, Buffer.append_eq]
        simp [ReadAnswer.bytes, List.append_assoc]
    | failed errno =>
      -- An interruption reads nothing and tries again.
      have interrupted : errno = eintr := first
      obtain ⟨after, ran, same⟩ := others conn
      refine ⟨after, ?_, ?_⟩
      · rw [List.cons_append, readLoop, if_pos interrupted]
        exact ran
      · rw [same]
        simp [ReadAnswer.bytes]

/--
A read on a non-blocking socket returns, whatever the chunks and the interruptions are.

Its buffer holds exactly the bytes that arrived if and only if none of them is zero.
-/
theorem read_keeps_bytes_iff {conn : Connection} {before : List ReadAnswer} {last : ReadAnswer}
    (open_ : conn.state = .connected) (continues : ∀ answer ∈ before, answer.Continues)
    (ends : last.Ends) (rcvSize : Nat) :
    ∃ after, conn.read true rcvSize (before ++ [last]) = some after ∧
      (after.readBuffer.buf = (before.map ReadAnswer.bytes).flatten ↔
        0 ∉ (before.map ReadAnswer.bytes).flatten) := by
  -- The buffer is cleared first, so it ends up with the pieces of the chunks alone.
  obtain ⟨after, ran, same⟩ := readLoop_eq continues ends
    { conn with readBuffer := conn.readBuffer.clear }
  refine ⟨after, ?_, ?_⟩
  · rw [Connection.read, if_pos open_]
    exact ran
  · rw [same, ← flatMap_takeWhile_eq_iff]
    simp [Buffer.clear]

/-- Three bytes arrive in two chunks, around an interruption. -/
theorem read_keeps_bytes_in_two_chunks :
    ∃ after, (⟨.connected, ⟨[7]⟩, ⟨[]⟩⟩ : Connection).read true 0
        ([.received [1, 2], .failed eintr, .received [3]] ++ [.failed eagain]) = some after ∧
      (after.readBuffer.buf = [1, 2, 3] ↔ (0 : Byte) ∉ ([1, 2, 3] : List Byte)) :=
  read_keeps_bytes_iff rfl (by decide) (by decide) 0

/-- A zero byte loses itself and what follows it in its chunk, so the chunks show in the buffer. -/
theorem read_drops_behind_zero :
    ∃ (conn first second : Connection) (bytes : List Byte),
      conn.read true 0 [.received [1, 0, 2], .failed eagain] = some first ∧
      conn.read true 0 [.received [1, 0], .received [2], .failed eagain] = some second ∧
      bytes = [1, 0, 2] ∧ first.readBuffer.buf ≠ bytes ∧ second.readBuffer.buf ≠ bytes ∧
      first.readBuffer ≠ second.readBuffer :=
  ⟨⟨.connected, ⟨[]⟩, ⟨[]⟩⟩, ⟨.connected, ⟨[1]⟩, ⟨[]⟩⟩, ⟨.connected, ⟨[1, 2]⟩, ⟨[]⟩⟩, [1, 0, 2],
    by decide, by decide, rfl, by decide, by decide, by decide⟩

end SimpleSrv.Nebula
