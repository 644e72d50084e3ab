import Mathlib.Data.List.TakeDrop
import SimpleSrv.Lib.Run
import SimpleSrv.Nebula.ReadLaws
import SimpleSrv.Nebula.WriteLaws

/-! The echo server and its line client, with what is under way between them. -/

namespace SimpleSrv.Nebula

/-- The answer that ends the loop of `WriteNonBlocking` is `EPIPE`, which comes with `SIGPIPE`. -/
def raisesSigpipe (dataLeft : Int) : List WriteAnswer → Bool
  | [] => false
  | .accepted count :: rest => 0 < dataLeft && raisesSigpipe (dataLeft - count) rest
  | .failed errno :: rest =>
    0 < dataLeft && if errno = eintr then raisesSigpipe dataLeft rest else errno = epipe

/-- How a call of the server's function ends. -/
inductive Outcome where
  | returned
  /-- It has called `Close`. -/
  | closed
  /-- `SIGPIPE`, which the program neither ignores nor handles, has ended the process. -/
  | killed
  deriving DecidableEq, Repr

/-- The function that the server hands to `OnConnect`, with the bytes that the kernel has taken. -/
def Connection.onConnect (conn : Connection) (reads : List ReadAnswer) (writes : List WriteAnswer) :
    Option (Connection × List Byte × Outcome) :=
  (conn.read true 0 reads).bind fun conn =>
    if conn.state = .closed then some (conn, [], .closed)
    else
      let conn := { conn with sendBuffer := conn.sendBuffer.setBuf conn.readBuffer.toStr }
      let killed := raisesSigpipe (toInt conn.sendBuffer.size) writes
      (conn.write true writes).map fun (conn, taken) =>
        (conn, taken, if killed then .killed else .returned)

/-- Where the loop of the client stands. -/
inductive ClientPhase where
  /-- `GetlineSendBuffer` waits for a line. -/
  | typing
  /-- `Read` waits for the answer. -/
  | reading
  /-- The process has ended. -/
  | ended
  deriving DecidableEq, Repr

/-- A client, the connection that the server has for it, and the two streams between them. -/
structure Session where
  client : Connection := ⟨.connected, {}, {}⟩
  server : Connection := ⟨.connected, {}, {}⟩
  phase : ClientPhase := .typing
  up : List Byte := []
  down : List Byte := []
  /-- The server has deleted the connection. -/
  deleted : Bool := false
  /-- An assertion has ended the process of the server. -/
  crashed : Bool := false
  /-- A signal has ended the process of the server. -/
  killed : Bool := false
  /-- All lines of the user, without their ends. -/
  typed : List Byte := []
  /-- All that the client has printed of the answers. -/
  printed : List Byte := []
  deriving DecidableEq, Repr

/-- What can happen next, with the answers of the kernel. -/
inductive EchoOp where
  /-- The user types a line, which the client writes. -/
  | line (text : List Byte) (answer : WriteAnswer)
  /-- The client reads, and prints what it has read. -/
  | receive (rcvSize : Nat) (answer : ReadAnswer)
  /-- An event makes the server call its `OnConnect` function. -/
  | serve (reads : List ReadAnswer) (writes : List WriteAnswer)
  /-- The user ends the client. -/
  | quit
  deriving DecidableEq, Repr

/-- The bytes that several answers bring. -/
def received (reads : List ReadAnswer) : List Byte := (reads.map ReadAnswer.bytes).flatten

namespace Session

/-- One step of the client, of the server or of the user. -/
def step (s : Session) : EchoOp → Option Session
  | .line text answer =>
    if s.phase = .typing then
      if s.client.state = .connected then
        ({ s.client with sendBuffer := ⟨text⟩ }.write false [answer]).map fun (conn, taken) =>
          { s with
            client := conn
            up := s.up ++ taken
            typed := s.typed ++ text
            -- A client has no function to delete its connection, so `Close` throws, if `SIGPIPE`
            -- has not ended the process before.
            phase := if conn.state = ConnState.closed then .ended else .reading }
      -- The assertion of `Write` ends the client.
      else some { s with typed := s.typed ++ text, phase := .ended }
    else none
  | .receive rcvSize answer =>
    if s.phase = .reading then
      (s.client.read false rcvSize [answer]).map fun conn =>
        { s with
          client := conn
          down := s.down.drop answer.bytes.length
          printed := s.printed ++ conn.readBuffer.toStr
          phase := .typing }
    else none
  | .serve reads writes =>
    if s.deleted = true ∨ s.crashed = true ∨ s.killed = true then none
    -- The assertion of `Read` ends the server.
    else if s.server.state ≠ .connected then some { s with crashed := true }
    else
      (s.server.onConnect reads writes).map fun (conn, taken, outcome) =>
        { s with
          server := conn
          up := s.up.drop (received reads).length
          down := s.down ++ taken
          deleted := outcome = .closed
          killed := outcome = .killed }
  | .quit => if s.phase = .ended then none else some { s with phase := .ended }

/-- The answers of `read` are those of a stream with these bytes in flight. -/
def Streams (flight : List Byte) (finished : Bool) (reads : List ReadAnswer) : Prop :=
  ∃ last ∈ reads.getLast?, (∀ answer ∈ reads.dropLast, answer.Continues) ∧ last.Ends ∧
    received reads <+: flight ∧
    -- The socket would only block without a byte, and the stream ends behind all of them.
    (last = .failed eagain ∨ last = .received [] → received reads = flight) ∧
    (last = .received [] → finished = true)

instance (flight : List Byte) (finished : Bool) (reads : List ReadAnswer) :
    Decidable (Streams flight finished reads) := by
  unfold Streams
  infer_instance

/-- What the kernel can answer. -/
def Permitted (s : Session) : EchoOp → Prop
  | .receive _ answer =>
    match answer with
    | .received [] => s.down = [] ∧ (s.deleted = true ∨ s.crashed = true ∨ s.killed = true)
    | .received bytes => bytes <+: s.down
    | .failed _ => True
  | .serve reads _ => Streams s.up (s.phase = .ended) reads
  | .line .. | .quit => True

instance (s : Session) : (op : EchoOp) → Decidable (s.Permitted op)
  | .receive _ (.received []) => inferInstanceAs (Decidable (_ ∧ _))
  | .receive _ (.received (byte :: bytes)) => inferInstanceAs (Decidable (byte :: bytes <+: s.down))
  | .receive _ (.failed _) => .isTrue trivial
  | .serve reads _ => inferInstanceAs (Decidable (Streams s.up (s.phase = .ended) reads))
  | .line .. => .isTrue trivial
  | .quit => .isTrue trivial

/-- The client may still print what the server sends to it. -/
def Listening (s : Session) : Prop := s.phase ≠ .ended ∧ s.client.state = .connected

/-- The server may still answer what the client sends to it. -/
def Serving (s : Session) : Prop :=
  s.deleted = false ∧ s.crashed = false ∧ s.killed = false ∧ s.server.state = .connected

instance (s : Session) : Decidable s.Listening := inferInstanceAs (Decidable (_ ∧ _))

instance (s : Session) : Decidable s.Serving := inferInstanceAs (Decidable (_ ∧ _))

/-- The bytes that the client has not printed, but may still print. -/
def underWay (s : Session) : List Byte :=
  if s.Listening then s.down ++ (if s.Serving then s.up else []) else []

/-- All bytes that have not been lost. -/
def kept (s : Session) : List Byte := s.printed ++ s.underWay

end Session

/-- The answers take all bytes that are left. -/
def SendsInFull (dataLeft : Int) : List WriteAnswer → Prop
  | [] => dataLeft ≤ 0
  | .accepted count :: rest => dataLeft ≤ 0 ∨ SendsInFull (dataLeft - count) rest
  | .failed errno :: rest => dataLeft ≤ 0 ∨ (errno = eintr ∧ SendsInFull dataLeft rest)

/-- An error closes the connection before all bytes are sent. -/
def Breaks (dataLeft : Int) : List WriteAnswer → Prop
  | [] => False
  | .accepted count :: rest => 0 < dataLeft ∧ Breaks (dataLeft - count) rest
  | .failed errno :: rest =>
    0 < dataLeft ∧ if errno = eintr then Breaks dataLeft rest else errno ≠ eagain

/-- The server sends back all that has come in, which is not empty. -/
def AnswersInFull (bytes : List Byte) (reads : List ReadAnswer) (writes : List WriteAnswer) :
    Prop :=
  reads.getLast? = some (.failed eagain) ∧ 0 ∉ bytes ∧ bytes.length < 2 ^ 31 ∧
    SendsInFull (toInt bytes.length) writes

/-- A step that no byte is lost by. -/
def Session.Lossless (s : Session) : EchoOp → Prop
  | .line text answer =>
    if s.client.state = .connected then
      match answer with
      | .accepted count => text = [] ∨ (count = text.length ∧ s.Serving)
      | .failed _ => text = [] ∧ s.underWay = []
    else text = []
  | .receive _ answer =>
    match answer with
    | .received bytes => 0 ∉ bytes
    | .failed _ => s.underWay = []
  | .serve reads writes =>
    -- Without bytes to send, nothing can go wrong.
    ¬ s.Listening ∨ ¬ s.Serving ∨ s.up = [] ∨ AnswersInFull s.up reads writes
  | .quit => s.underWay = []

/-- The loop takes all the bytes exactly if the answers do. -/
theorem writeLoop_length_iff {buf : List Byte} {dataSize dataLeft : Int} {state : ConnState}
    {answers : List WriteAnswer} {sent : Sent} (low : dataLeft ≤ dataSize)
    (high : dataSize ≤ buf.length)
    (ran : writeLoop buf dataSize dataLeft state answers = some sent) :
    sent.taken.length ≤ dataLeft.toNat ∧
      (sent.taken.length = dataLeft.toNat ↔ SendsInFull dataLeft answers) := by
  -- The induction is on the answers, with the bytes that are left generalised.
  induction answers generalizing dataLeft sent with
  | nil =>
    simp only [writeLoop] at ran
    split at ran <;> cases ran
    simp only [List.length_nil, SendsInFull]
    omega
  | cons answer rest ih =>
    simp only [writeLoop] at ran
    split at ran
    · rename_i unsent
      cases answer with
      | failed errno =>
        simp only at ran
        split at ran
        · rename_i interrupted
          obtain ⟨short, full⟩ := ih low ran
          refine ⟨short, full.trans ?_⟩
          simp [SendsInFull, interrupted, Int.not_le.mpr unsent]
        · rename_i final
          have none : sent.taken = [] := by split at ran <;> cases ran <;> rfl
          simp only [none, List.length_nil, SendsInFull, final, false_and, or_false]
          omega
      | accepted count =>
        simp only at ran
        split at ran
        · rename_i fits
          obtain ⟨later, ranLater, rfl⟩ := Option.map_eq_some_iff.mp ran
          obtain ⟨short, full⟩ := ih (by omega) ranLater
          -- The bytes of this call are all there, as the count is no larger than what is left.
          have chunk : ((buf.drop (dataSize - dataLeft).toNat).take count).length = count := by
            simp only [List.length_take, List.length_drop]
            omega
          simp only [List.length_append, chunk, SendsInFull, Int.not_le.mpr unsent, false_or,
            ← full]
          omega
        · cases ran
    · cases ran
      rename_i sentAll
      have nothing : dataLeft ≤ 0 := by omega
      have none : dataLeft.toNat = 0 := by omega
      cases answer <;> simp [SendsInFull, nothing, none]

/-- What a reading loop keeps of the bytes that its answers bring. -/
def cut (reads : List ReadAnswer) : List Byte :=
  (reads.map ReadAnswer.bytes).flatMap (List.takeWhile (· ≠ 0))

/-- Cutting at zeros only leaves bytes out. -/
theorem cut_sublist (reads : List ReadAnswer) : (cut reads).Sublist (received reads) := by
  -- By induction on the reads: `append` takes a string up to its first zero.
  unfold cut received
  induction reads.map ReadAnswer.bytes with
  | nil => exact .slnil
  | cons bytes rest ih =>
    rw [List.flatMap_cons, List.flatten_cons]
    exact (List.takeWhile_sublist _).append ih

/-- No zero is left. -/
theorem not_mem_cut (reads : List ReadAnswer) : (0 : Byte) ∉ cut reads := by
  -- What is left of each read are the bytes before a zero.
  intro member
  obtain ⟨bytes, _, kept⟩ := List.mem_flatMap.mp member
  have nonzero := List.mem_takeWhile_imp kept
  simp at nonzero

/-- The loop stays connected exactly if it ends because the socket would block. -/
theorem readLoop_spec {before : List ReadAnswer} {last : ReadAnswer}
    (continues : ∀ answer ∈ before, answer.Continues) (ends : last.Ends) (conn : Connection) :
    readLoop conn (before ++ [last]) = some { conn with
      readBuffer := ⟨conn.readBuffer.buf ++ cut before⟩
      state := if last = .failed eagain then conn.state else .closed } := by
  -- The induction is on the answers that keep the loop going.
  induction before generalizing conn with
  | nil =>
    cases last with
    | received bytes =>
      have empty : bytes = [] := ends
      simp [readLoop, empty, cut]
    | failed errno =>
      have final : errno ≠ eintr := ends
      by_cases blocks : errno = eagain
      · subst blocks
        simp [readLoop, final, cut]
      · simp [readLoop, final, blocks, cut]
  | cons answer rest ih =>
    have first := continues answer List.mem_cons_self
    have others := ih fun later member => continues later (List.mem_cons_of_mem _ member)
    cases answer with
    | received bytes =>
      obtain ⟨filled, fits⟩ := first
      rw [List.cons_append, readLoop, if_pos fits, if_pos filled, others, Buffer.append_eq]
      simp [cut, ReadAnswer.bytes, List.append_assoc]
    | failed errno =>
      have interrupted : errno = eintr := first
      rw [List.cons_append, readLoop, if_pos interrupted, others]
      simp [cut, ReadAnswer.bytes]

/-- An error leaves the connection closed, and nothing else does. -/
theorem writeLoop_state {buf : List Byte} {dataSize dataLeft : Int} {answers : List WriteAnswer}
    {sent : Sent} (ran : writeLoop buf dataSize dataLeft .connected answers = some sent) :
    sent.state = .connected ↔ ¬ Breaks dataLeft answers := by
  -- By induction on the answers: an interrupted write is repeated, and any other error closes the
  -- connection.
  induction answers generalizing dataLeft sent with
  | nil =>
    simp only [writeLoop] at ran
    split at ran <;> cases ran
    simp [Breaks]
  | cons answer rest ih =>
    simp only [writeLoop] at ran
    split at ran
    · rename_i unsent
      cases answer with
      | failed errno =>
        simp only at ran
        by_cases interrupted : errno = eintr
        · rw [if_pos interrupted] at ran
          simp only [Breaks, unsent, interrupted, if_true, true_and]
          exact ih ran
        · rw [if_neg interrupted] at ran
          simp only [Breaks, unsent, if_neg interrupted, true_and, ne_eq, not_not]
          split at ran
          · cases ran
            simpa
          · cases ran
            simpa
      | accepted count =>
        simp only at ran
        split at ran
        · obtain ⟨later, ranLater, rfl⟩ := Option.map_eq_some_iff.mp ran
          simp only [Breaks, unsent, true_and]
          exact ih ranLater
        · cases ran
    · cases ran
      rename_i sentAll
      cases answer <;> simp [Breaks, sentAll]

/-- What the server's function does with the bytes that it reads. -/
structure Served (reads : List ReadAnswer) (writes : List WriteAnswer) (after : Connection)
    (taken : List Byte) (outcome : Outcome) : Prop where
  closed_iff : outcome = .closed ↔ reads.getLast? ≠ some (.failed eagain)
  killed_iff : outcome = .killed ↔ reads.getLast? = some (.failed eagain) ∧
    raisesSigpipe (toInt (cut reads).length) writes = true
  silent : outcome = .closed → taken = []
  sublist : taken.Sublist (received reads)
  all_iff : received reads ≠ [] →
    (taken.length = (received reads).length ↔ AnswersInFull (received reads) reads writes)
  state_iff : outcome ≠ .closed →
    (after.state = .connected ↔ ¬ Breaks (toInt (cut reads).length) writes)

/-- What the server's function reads is what it sends, up to zeros and to what cannot be sent. -/
theorem onConnect_spec {conn after : Connection} {before : List ReadAnswer} {last : ReadAnswer}
    {writes : List WriteAnswer} {taken : List Byte} {outcome : Outcome}
    (open_ : conn.state = .connected) (continues : ∀ answer ∈ before, answer.Continues)
    (ends : last.Ends)
    (ran : conn.onConnect (before ++ [last]) writes = some (after, taken, outcome)) :
    Served (before ++ [last]) writes after taken outcome := by
  -- The answer that ends the loop brings no byte.
  have none : last.bytes = [] := by
    cases last with
    | received bytes => exact ends
    | failed errno => rfl
  have brings : received (before ++ [last]) = received before := by simp [received, none]
  have keeps : cut (before ++ [last]) = cut before := by simp [cut, none]
  unfold Connection.onConnect Connection.read at ran
  rw [if_pos open_] at ran
  simp only [if_true] at ran
  rw [readLoop_spec continues ends, Option.bind_some, open_] at ran
  by_cases blocks : last = .failed eagain
  · have plain : (cut before).takeWhile (· ≠ 0) = cut before := by
      apply List.takeWhile_eq_self_iff.mpr
      intro byte member
      have nonzero : byte ≠ 0 := fun zero => not_mem_cut before (zero ▸ member)
      simpa using nonzero
    simp only [blocks, if_true, reduceCtorEq, if_false, Buffer.clear, List.nil_append,
      Buffer.toStr, Buffer.setBuf, plain, Connection.write, writeNonBlocking, Buffer.size,
      Option.map_map] at ran
    obtain ⟨sent, wrote, shape⟩ := Option.map_eq_some_iff.mp ran
    cases shape
    have size := toInt_natCast_le (cut before).length
    obtain ⟨count, _, taken⟩ := writeLoop_prefix (Int.le_refl _) wrote
    obtain ⟨short, full⟩ := writeLoop_length_iff (Int.le_refl _) size wrote
    rw [Int.sub_self, Int.toNat_zero, List.drop_zero] at taken
    have sub : sent.taken.Sublist (cut before) := taken ▸ List.take_sublist _ _
    have kept := (cut_sublist before).length_le
    refine ⟨?_, ?_, ?_, brings ▸ sub.trans (cut_sublist before), fun filled => ?_, fun _ => ?_⟩
    · simp only [blocks, List.getLast?_concat, ne_eq, not_true_eq_false, iff_false]
      split <;> simp
    · rw [keeps]
      simp [blocks]
    · split <;> simp
    · rw [brings] at filled ⊢
      show sent.taken.length = (received before).length ↔ _
      constructor
      · intro all
        -- Nothing has been cut off, neither at a zero nor by the conversion of the size.
        have whole : cut before = received before := by
          have below := sub.length_le
          exact (cut_sublist before).eq_of_length (by omega)
        rw [whole] at short full
        have positive := List.length_pos_of_ne_nil filled
        have below := toInt_natCast_le (received before).length
        have exact_ : toInt (received before).length = (received before).length := by omega
        refine ⟨by simp [blocks], whole ▸ not_mem_cut before,
          (toInt_natCast_eq_iff _).mp exact_, full.mp ?_⟩
        omega
      · rintro ⟨_, clean, fits, sends⟩
        have whole : cut before = received before := (flatMap_takeWhile_eq_iff _).mpr clean
        rw [whole] at full
        have exact_ := (toInt_natCast_eq_iff _).mpr fits
        rw [full.mpr sends, exact_, Int.toNat_natCast]
    · rw [keeps]
      exact writeLoop_state wrote
  · simp only [if_neg blocks, if_true] at ran
    cases ran
    refine ⟨by simp [blocks], by simp [blocks], fun _ => rfl, List.nil_sublist _,
      fun filled => ?_, by simp⟩
    constructor
    · intro all
      exact absurd (List.eq_nil_of_length_eq_zero all.symm) filled
    · rintro ⟨blocked, _⟩
      exact absurd (by simpa using blocked) blocks

end SimpleSrv.Nebula
