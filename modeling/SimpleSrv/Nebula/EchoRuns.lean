import SimpleSrv.Lib.Conveys
import SimpleSrv.Nebula.Echo

/-! Which bytes come back to the client of the echo server, and when the server goes down. -/

namespace SimpleSrv.Nebula.Session

variable {s t : Session} {op : EchoOp} {ops : List EchoOp}

/-- The last answer is the only one that ends the loop. -/
theorem Streams.split {flight : List Byte} {finished : Bool} {reads : List ReadAnswer}
    (streams : Streams flight finished reads) : ∃ before last, reads = before ++ [last] ∧
      (∀ answer ∈ before, answer.Continues) ∧ last.Ends ∧ received reads <+: flight ∧
      (last = .failed eagain ∨ last = .received [] → received reads = flight) := by
  obtain ⟨last, final, continues, ends, arrived, whole, _⟩ := streams
  exact ⟨reads.dropLast, last, (List.dropLast_append_getLast? last final).symm, continues, ends,
    arrived, whole⟩

/-- What a blocking read leaves behind. -/
theorem read_blocking {conn after : Connection} {rcvSize : Nat} {answer : ReadAnswer}
    (ran : conn.read false rcvSize [answer] = some after) :
    conn.state = .connected ∧ after.readBuffer.toStr = answer.bytes.takeWhile (· ≠ 0) ∧
      (after.state = .connected ↔ answer.bytes ≠ []) := by
  -- Three answers: an error, a number of bytes, and none at all, which closes as well.
  unfold Connection.read at ran
  split at ran
  · rename_i connected
    simp only [Bool.false_eq_true, if_false] at ran
    refine ⟨connected, ?_⟩
    cases answer with
    | failed errno =>
      cases ran
      simp [Buffer.toStr, Buffer.clear, ReadAnswer.bytes]
    | received bytes =>
      simp only [readBlocking] at ran
      split at ran
      · split at ran
        · rename_i some_
          cases ran
          have appended := Buffer.append_eq bytes [] ⟨[]⟩
          rw [List.append_nil] at appended
          have filled : bytes ≠ [] := List.ne_nil_of_length_pos some_
          simp [Buffer.clear, Buffer.toStr, appended, ReadAnswer.bytes, connected, filled]
        · rename_i none
          cases ran
          have empty : bytes = [] := List.eq_nil_of_length_eq_zero (by omega)
          simp [Buffer.clear, Buffer.toStr, ReadAnswer.bytes, empty]
      · cases ran
  · cases ran

/-- What a blocking write leaves behind. -/
theorem write_blocking {conn after : Connection} {answer : WriteAnswer} {taken : List Byte}
    (ran : conn.write false [answer] = some (after, taken)) :
    (after.state = .connected ∧ ∃ count, answer = .accepted count ∧
      count ≤ conn.sendBuffer.buf.length ∧ taken = conn.sendBuffer.buf.take count) ∨
    (after.state = .closed ∧ taken = [] ∧ ∃ errno, answer = .failed errno) := by
  -- The whole buffer is offered in one call, of which the kernel takes a part.
  unfold Connection.write at ran
  split at ran
  · rename_i connected
    simp only [Bool.false_eq_true, if_false] at ran
    obtain ⟨sent, wrote, shape⟩ := Option.map_eq_some_iff.mp ran
    cases shape
    cases answer with
    | failed errno =>
      cases wrote
      exact .inr ⟨rfl, rfl, errno, rfl⟩
    | accepted count =>
      simp only [writeBlocking, Buffer.toStr] at wrote
      split at wrote
      · rename_i fits
        cases wrote
        exact .inl ⟨connected, count, rfl, fits, rfl⟩
      · cases wrote
  · cases ran

/-- A client that does not listen keeps what it has printed. -/
theorem kept_of_deaf (deaf : ¬ s.Listening) : s.kept = s.printed := by
  simp [kept, underWay, deaf]

/-- A client that listens keeps the answers too, and what the server may answer. -/
theorem kept_of_listening (listening : s.Listening) :
    s.kept = s.printed ++ (s.down ++ if s.Serving then s.up else []) := by
  simp [kept, underWay, listening]

/-- With the server, all bytes in both streams count. -/
theorem kept_of_serving (listening : s.Listening) (serving : s.Serving) :
    s.kept = s.printed ++ (s.down ++ s.up) := by
  rw [kept_of_listening listening, if_pos serving]

/-- Without the server, the answers that have been sent are all there are. -/
theorem kept_of_silent (listening : s.Listening) (silent : ¬ s.Serving) :
    s.kept = s.printed ++ s.down := by
  rw [kept_of_listening listening, if_neg silent, List.append_nil]

/-- How the bytes that a step leaves are related to those that were there before. -/
def Passes (s : Session) (op : EchoOp) (t : Session) : Prop :=
  ∃ items, t.typed = s.typed ++ items ∧ t.kept.Sublist (s.kept ++ items) ∧
    (t.kept.length = s.kept.length + items.length ↔ s.Lossless op)

/-- Nothing is typed, and a piece of the bytes under way is replaced by a part of it. -/
theorem Passes.of_part (first piece part rest : List Byte) (typed : t.typed = s.typed)
    (before : s.kept = first ++ piece ++ rest) (after : t.kept = first ++ part ++ rest)
    (sublist : part.Sublist piece) (whole : part.length = piece.length ↔ s.Lossless op) :
    Passes s op t := by
  -- The bytes before and behind the piece are the same on both sides.
  refine ⟨[], by rw [typed, List.append_nil], ?_, ?_⟩
  · rw [List.append_nil, before, after]
    exact ((List.Sublist.refl _).append sublist).append (.refl _)
  · rw [← whole, before, after]
    simp only [List.length_append, List.length_nil]
    omega

/-- A piece of what has been typed is now under way. -/
theorem Passes.of_typed (text taken : List Byte) (typed : t.typed = s.typed ++ text)
    (after : t.kept = s.kept ++ taken) (sublist : taken.Sublist text)
    (whole : taken.length = text.length ↔ s.Lossless op) : Passes s op t := by
  -- What the kernel has taken follows what was under way already.
  refine ⟨text, typed, ?_, ?_⟩
  · rw [after]
    exact (List.Sublist.refl _).append sublist
  · rw [← whole, after, List.length_append]
    omega

/-- From now on, nothing more is printed. -/
theorem Passes.of_deaf (text : List Byte) (typed : t.typed = s.typed ++ text)
    (printed : t.printed = s.printed) (deaf : ¬ t.Listening)
    (whole : text = [] ∧ s.underWay = [] ↔ s.Lossless op) : Passes s op t := by
  -- Whatever is still under way does not count any more.
  have after : t.kept = s.printed := by simp [kept, underWay, deaf, printed]
  refine ⟨text, typed, ?_, ?_⟩
  · rw [after, kept, List.append_assoc]
    exact List.sublist_append_left _ _
  · rw [← whole, after, kept, List.length_append]
    simp only [← List.length_eq_zero_iff]
    omega

/-- A line reaches the server as far as the kernel takes it. -/
theorem line_passes {text : List Byte} {answer : WriteAnswer}
    (stepped : s.step (.line text answer) = some t) : Passes s (.line text answer) t := by
  -- A line counts if the client's connection takes it and the server still serves it.
  simp only [step] at stepped
  split at stepped
  · rename_i typing
    split at stepped
    · rename_i connected
      obtain ⟨⟨conn, taken⟩, wrote, rfl⟩ := Option.map_eq_some_iff.mp stepped
      have heard : s.Listening := ⟨by simp [typing], connected⟩
      rcases write_blocking wrote with ⟨still, count, rfl, fits, rfl⟩ | ⟨closed, rfl, errno, rfl⟩
      · simp only at fits
        by_cases serving : s.Serving
        · refine .of_typed text (text.take count) rfl ?_ (List.take_sublist count text) ?_
          · refine Eq.trans (kept_of_serving ⟨by simp [still], still⟩ serving) ?_
            simp [kept_of_serving heard serving]
          · simp only [Lossless, connected, if_true, serving, and_true, List.length_take]
            rw [← List.length_eq_zero_iff]
            omega
        · refine .of_typed text [] rfl ?_ (List.nil_sublist text) ?_
          · refine Eq.trans (kept_of_silent ⟨by simp [still], still⟩ serving) ?_
            simp [kept_of_silent heard serving]
          · simp [Lossless, connected, serving, eq_comm]
      · refine .of_deaf text rfl rfl ?_ ?_
        · simp [Listening, closed]
        · simp [Lossless, connected]
    · rename_i closed
      cases stepped
      refine .of_typed text [] rfl ?_ (List.nil_sublist text) ?_
      · refine Eq.trans (kept_of_deaf (by simp [Listening])) ?_
        simp [kept_of_deaf (s := s) (by simp [Listening, closed])]
      · simp [Lossless, closed, eq_comm]
  · cases stepped

/-- The client prints what has come back, up to a zero. -/
theorem receive_passes {rcvSize : Nat} {answer : ReadAnswer}
    (permitted : s.Permitted (.receive rcvSize answer))
    (stepped : s.step (.receive rcvSize answer) = some t) :
    Passes s (.receive rcvSize answer) t := by
  -- The bytes read are the first of those on their way down, and the zero test cuts them.
  simp only [step] at stepped
  split at stepped
  · rename_i reading
    obtain ⟨conn, ran, rfl⟩ := Option.map_eq_some_iff.mp stepped
    obtain ⟨connected, shown, still⟩ := read_blocking ran
    have heard : s.Listening := ⟨by simp [reading], connected⟩
    cases answer with
    | failed errno =>
      refine .of_deaf [] (by simp) ?_ ?_ ?_
      · simp [shown, ReadAnswer.bytes]
      · simp [Listening, still, ReadAnswer.bytes]
      · simp [Lossless]
    | received bytes =>
      cases bytes with
      | nil =>
        obtain ⟨drained, gone⟩ := permitted
        have silent : ¬ s.Serving := by
          rintro ⟨kept, running, alive, _⟩
          simp [kept, running, alive] at gone
        refine .of_deaf [] (by simp) ?_ ?_ ?_
        · simp [shown, ReadAnswer.bytes]
        · simp [Listening, still, ReadAnswer.bytes]
        · simp [Lossless, underWay, drained, silent]
      | cons byte bytes =>
        obtain ⟨rest, down⟩ := permitted
        have clean : ((byte :: bytes).takeWhile (· ≠ 0)).length = (byte :: bytes).length ↔
            s.Lossless (.receive rcvSize (.received (byte :: bytes))) := by
          have cut := flatMap_takeWhile_eq_iff [byte :: bytes]
          simp only [List.flatMap_singleton, List.flatten_singleton] at cut
          exact ⟨fun same => cut.mp ((List.takeWhile_sublist _).eq_of_length same),
            fun clean => congrArg List.length (cut.mpr clean)⟩
        have still := still.mpr (List.cons_ne_nil byte bytes)
        by_cases serving : s.Serving
        · refine .of_part s.printed (byte :: bytes) _ (rest ++ s.up) rfl ?_ ?_
            (List.takeWhile_sublist _) clean
          · simp [kept_of_serving heard serving, ← down]
          · refine Eq.trans (kept_of_serving ⟨by simp, still⟩ serving) ?_
            simp [shown, ReadAnswer.bytes, ← down]
        · refine .of_part s.printed (byte :: bytes) _ rest rfl ?_ ?_
            (List.takeWhile_sublist _) clean
          · simp [kept_of_silent heard serving, ← down]
          · refine Eq.trans (kept_of_silent ⟨by simp, still⟩ serving) ?_
            simp [shown, ReadAnswer.bytes, ← down]
  · cases stepped

/-- The server sends back what has come in, as far as it can. -/
theorem serve_passes {reads : List ReadAnswer} {writes : List WriteAnswer}
    (permitted : s.Permitted (.serve reads writes))
    (stepped : s.step (.serve reads writes) = some t) : Passes s (.serve reads writes) t := by
  -- All that has come up is read in one event, and either sent back or lost with the connection.
  simp only [step] at stepped
  split at stepped
  · cases stepped
  · rename_i running
    split at stepped
    · rename_i closed
      cases stepped
      have silent : ¬ s.Serving := fun serving => closed serving.2.2.2
      refine .of_typed [] [] (by simp) ?_ (.refl _) (by simp [Lossless, silent])
      by_cases heard : s.Listening
      · refine Eq.trans (kept_of_silent heard (by simp [Serving])) ?_
        simp [kept_of_silent heard silent]
      · refine Eq.trans (kept_of_deaf heard) ?_
        simp [kept_of_deaf heard]
    · rename_i connected
      obtain ⟨⟨conn, taken, outcome⟩, ran, rfl⟩ := Option.map_eq_some_iff.mp stepped
      obtain ⟨before, last, rfl, continues, ends, ⟨rest, up⟩, whole⟩ := permitted.split
      have served := onConnect_spec (not_not.mp connected) continues ends ran
      have serving : s.Serving := by
        simp only [Serving, not_not.mp connected, and_true]
        simpa using running
      by_cases heard : s.Listening
      · cases outcome with
        | closed =>
          -- Whatever has not been answered is lost with the connection.
          have empty := served.silent rfl
          have final := served.closed_iff.mp rfl
          refine .of_part (s.printed ++ s.down) s.up [] [] rfl ?_ ?_ (List.nil_sublist _) ?_
          · simp [kept_of_serving heard serving]
          · refine Eq.trans (kept_of_silent heard (by simp [Serving])) ?_
            simp [empty]
          · have never : ¬ AnswersInFull s.up (before ++ [last]) writes := fun full => final full.1
            simp [Lossless, heard, serving, never, eq_comm]
        | returned | killed =>
          have blocked : (before ++ [last]).getLast? = some (.failed eagain) := by
            simpa using served.closed_iff
          have all : received (before ++ [last]) = s.up := whole (.inl (by simpa using blocked))
          refine .of_part (s.printed ++ s.down) s.up taken [] rfl ?_ ?_ (all ▸ served.sublist) ?_
          · simp [kept_of_serving heard serving]
          · have left : s.up.drop (received (before ++ [last])).length = [] := by simp [all]
            refine Eq.trans (kept_of_listening heard) ?_
            simp [left]
          · by_cases none : s.up = []
            · have quiet : taken = [] := List.sublist_nil.mp (none ▸ all ▸ served.sublist)
              simp [Lossless, none, quiet]
            · simp only [Lossless, heard, serving, none, not_true, false_or]
              rw [← all] at none ⊢
              exact served.all_iff none
      · refine .of_typed [] [] (by simp) ?_ (.refl _) (by simp [Lossless, heard])
        refine Eq.trans (kept_of_deaf heard) ?_
        simp [kept_of_deaf heard]

/-- No step makes up, repeats or exchanges a byte. -/
theorem conveys : Conveys step Permitted typed kept Lossless where
  -- One lemma for each kind of step; quitting only ends the printing.
  one := by
    intro s op t permitted stepped
    cases op with
    | line text answer => exact line_passes stepped
    | receive rcvSize answer => exact receive_passes permitted stepped
    | serve reads writes => exact serve_passes permitted stepped
    | quit =>
      simp only [step] at stepped
      split at stepped
      · cases stepped
      · cases stepped
        exact Passes.of_deaf [] (by simp) rfl (by simp [Listening]) (by simp [Lossless])

/-- An error has closed the connection of the server, which has not noticed it. -/
structure Broken (s : Session) : Prop where
  state : s.server.state ≠ .connected
  kept : s.deleted = false
  running : s.crashed = false
  alive : s.killed = false

/-- The answer to the client ends in an error that closes the connection, without a signal. -/
def Fails (s : Session) : EchoOp → Prop
  | .serve reads writes =>
    s.Serving ∧ reads.getLast? = some (.failed eagain) ∧
      Breaks (toInt (cut reads).length) writes ∧
        raisesSigpipe (toInt (cut reads).length) writes = false
  | _ => False

/-- The answer to the client ends in the signal. -/
def Signals (s : Session) : EchoOp → Prop
  | .serve reads writes =>
    s.Serving ∧ reads.getLast? = some (.failed eagain) ∧
      raisesSigpipe (toInt (cut reads).length) writes = true
  | _ => False

/-- The server takes part in the step. -/
def Event (op : EchoOp) : Prop := ∃ reads writes, op = .serve reads writes

/-- Without an event, the server stays as it is. -/
theorem server_frame (quiet : ¬ Event op) (stepped : s.step op = some t) :
    t.server = s.server ∧ t.deleted = s.deleted ∧ t.crashed = s.crashed ∧
      t.killed = s.killed := by
  -- The client's steps touch the client and the two streams.
  cases op with
  | serve reads writes => exact absurd ⟨reads, writes, rfl⟩ quiet
  | line text answer =>
    simp only [step] at stepped
    split at stepped
    · split at stepped
      · obtain ⟨_, _, rfl⟩ := Option.map_eq_some_iff.mp stepped
        exact ⟨rfl, rfl, rfl, rfl⟩
      · cases stepped
        exact ⟨rfl, rfl, rfl, rfl⟩
    · cases stepped
  | receive rcvSize answer =>
    simp only [step] at stepped
    split at stepped
    · obtain ⟨_, _, rfl⟩ := Option.map_eq_some_iff.mp stepped
      exact ⟨rfl, rfl, rfl, rfl⟩
    · cases stepped
  | quit =>
    simp only [step] at stepped
    split at stepped
    · cases stepped
    · cases stepped
      exact ⟨rfl, rfl, rfl, rfl⟩

/-- An event for a connection that the server still has. -/
theorem serve_cases {reads : List ReadAnswer} {writes : List WriteAnswer}
    (permitted : s.Permitted (.serve reads writes))
    (stepped : s.step (.serve reads writes) = some t) :
    s.deleted = false ∧ s.crashed = false ∧ s.killed = false ∧
      ((s.server.state ≠ .connected ∧ t = { s with crashed := true }) ∨
        (s.server.state = .connected ∧ t.crashed = false ∧ ∃ taken outcome,
          (t.deleted = true ↔ outcome = .closed) ∧ (t.killed = true ↔ outcome = .killed) ∧
            Served reads writes t.server taken outcome)) := by
  -- The assertion of `Connection::read` comes first, and everything else is the handler's.
  simp only [step] at stepped
  split at stepped
  · cases stepped
  · rename_i running
    simp only [not_or, Bool.not_eq_true] at running
    obtain ⟨kept, running, alive⟩ := running
    refine ⟨kept, running, alive, ?_⟩
    split at stepped
    · rename_i closed
      cases stepped
      exact .inl ⟨closed, rfl⟩
    · rename_i connected
      obtain ⟨⟨conn, taken, outcome⟩, ran, rfl⟩ := Option.map_eq_some_iff.mp stepped
      obtain ⟨before, last, rfl, continues, ends, _⟩ := permitted.split
      exact .inr ⟨not_not.mp connected, running, taken, outcome, by simp, by simp,
        onConnect_spec (not_not.mp connected) continues ends ran⟩

/-- Without an event, no answer fails. -/
theorem not_fails (quiet : ¬ Event op) : ¬ s.Fails op := by
  cases op with
  | serve reads writes => exact absurd ⟨reads, writes, rfl⟩ quiet
  | _ => exact id

/-- Without an event, no signal is raised. -/
theorem not_signals (quiet : ¬ Event op) : ¬ s.Signals op := by
  cases op with
  | serve reads writes => exact absurd ⟨reads, writes, rfl⟩ quiet
  | _ => exact id

/-- Only a failing answer breaks the connection of the server, and only an event ends that. -/
theorem broken_iff (permitted : s.Permitted op) (stepped : s.step op = some t) :
    Broken t ↔ s.Fails op ∨ (Broken s ∧ ¬ Event op) := by
  -- An event makes a new verdict on the connection; anything else leaves it as it was.
  by_cases event : Event op
  · obtain ⟨reads, writes, rfl⟩ := event
    obtain ⟨kept, running, alive, ⟨shut, rfl⟩ | ⟨connected, runs, taken, outcome, deleted, killed,
      served⟩⟩ := serve_cases permitted stepped
    · -- The assertion ends the server.
      have silent : ¬ s.Serving := fun serving => shut serving.2.2.2
      constructor
      · intro broken
        simpa using broken.running
      · rintro (⟨serving, _⟩ | ⟨_, quiet⟩)
        · exact absurd serving silent
        · exact absurd ⟨reads, writes, rfl⟩ quiet
    · constructor
      · rintro ⟨state, present, _, going⟩
        have open_ : outcome ≠ .closed := fun same => by simp [deleted.mpr same] at present
        have blocked : reads.getLast? = some (.failed eagain) :=
          not_not.mp fun other => open_ (served.closed_iff.mpr other)
        have silent : ¬ raisesSigpipe (toInt (cut reads).length) writes = true := fun raises => by
          simp [killed.mpr (served.killed_iff.mpr ⟨blocked, raises⟩)] at going
        exact .inl ⟨⟨kept, running, alive, connected⟩, blocked,
          not_not.mp fun sound => state ((served.state_iff open_).mpr sound), by simpa using silent⟩
      · rintro (⟨_, blocked, breaks, silent⟩ | ⟨_, quiet⟩)
        · have open_ : outcome ≠ .closed := fun same => served.closed_iff.mp same blocked
          refine ⟨fun still => (served.state_iff open_).mp still breaks, ?_, runs, ?_⟩
          · exact Bool.not_eq_true _ ▸ fun gone => open_ (deleted.mp gone)
          · refine Bool.not_eq_true _ ▸ fun gone => ?_
            rw [(served.killed_iff.mp (killed.mp gone)).2] at silent
            cases silent
        · exact absurd ⟨reads, writes, rfl⟩ quiet
  · obtain ⟨server, deleted, crashed, killed⟩ := server_frame event stepped
    constructor
    · rintro ⟨state, kept, running, alive⟩
      exact .inr ⟨⟨server ▸ state, deleted ▸ kept, crashed ▸ running, killed ▸ alive⟩, event⟩
    · rintro (fails | ⟨⟨state, kept, running, alive⟩, _⟩)
      · exact absurd fails (not_fails event)
      · exact ⟨server ▸ state, deleted ▸ kept, crashed ▸ running, killed ▸ alive⟩

/-- Only an event for a broken connection makes the assertion fail. -/
theorem crashed_iff (permitted : s.Permitted op) (stepped : s.step op = some t) :
    t.crashed = true ↔ s.crashed = true ∨ (Broken s ∧ Event op) := by
  -- The assertion fails exactly on a connection that is closed but not deleted.
  by_cases event : Event op
  · obtain ⟨reads, writes, rfl⟩ := event
    have event : Event (.serve reads writes) := ⟨reads, writes, rfl⟩
    obtain ⟨kept, running, alive, ⟨shut, rfl⟩ | ⟨connected, runs, _⟩⟩ :=
      serve_cases permitted stepped
    · simp [running, event, show Broken s from ⟨shut, kept, running, alive⟩]
    · have sound : ¬ Broken s := fun broken => broken.state connected
      simp [running, runs, sound]
  · obtain ⟨_, _, crashed, _⟩ := server_frame event stepped
    simp [crashed, event]

/-- Only an answer that meets `EPIPE` raises the signal. -/
theorem killed_iff (permitted : s.Permitted op) (stepped : s.step op = some t) :
    t.killed = true ↔ s.killed = true ∨ s.Signals op := by
  -- An event for a connection that is served ends as its outcome says.
  by_cases event : Event op
  · obtain ⟨reads, writes, rfl⟩ := event
    obtain ⟨kept, running, alive, ⟨shut, rfl⟩ | ⟨connected, runs, taken, outcome, deleted, killed,
      served⟩⟩ := serve_cases permitted stepped
    · have silent : ¬ s.Serving := fun serving => shut serving.2.2.2
      simp [alive, Signals, silent]
    · have serving : s.Serving := ⟨kept, running, alive, connected⟩
      rw [killed, served.killed_iff]
      simp [alive, Signals, serving]
  · obtain ⟨_, _, _, killed⟩ := server_frame event stepped
    simp [killed, not_signals event]

/-- Without an event, no byte comes to the client. -/
theorem down_suffix (quiet : ¬ Event op) (stepped : s.step op = some t) : t.down <:+ s.down := by
  -- The client reads from the front of the stream, and only the server appends to it.
  cases op with
  | serve reads writes => exact absurd ⟨reads, writes, rfl⟩ quiet
  | line text answer =>
    simp only [step] at stepped
    split at stepped
    · split at stepped
      · obtain ⟨_, _, rfl⟩ := Option.map_eq_some_iff.mp stepped
        exact List.suffix_refl _
      · cases stepped
        exact List.suffix_refl _
    · cases stepped
  | receive rcvSize answer =>
    simp only [step] at stepped
    split at stepped
    · obtain ⟨_, _, rfl⟩ := Option.map_eq_some_iff.mp stepped
      exact List.drop_suffix _ _
    · cases stepped
  | quit =>
    simp only [step] at stepped
    split at stepped
    · cases stepped
    · cases stepped
      exact List.suffix_refl _

/-- What comes of a connection whose closing the server has not noticed. -/
structure Doomed (u : Session) (later : List EchoOp) (s : Session) : Prop where
  /-- The first event ends the server, and without one the connection stays as it is. -/
  crashed_iff : s.crashed = true ↔ ∃ op ∈ later, Event op
  broken_iff : Broken s ↔ ∀ op ∈ later, ¬ Event op
  kept : s.deleted = false
  /-- No byte is sent to the client any more. -/
  answers : s.down <:+ u.down

/-- Behind a failing answer, the next event ends the whole server. -/
theorem Broken.doomed {u : Session} {later : List EchoOp} (broken : Broken u)
    (run : Run step Permitted u later s) : Doomed u later s := by
  -- By induction on the run, as long as it has no event; the first one ends the process.
  induction run with
  | start => exact ⟨by simp [broken.running], by simp [broken], broken.kept, List.suffix_refl _⟩
  | @next t s ops op run permitted stepped ih =>
    by_cases event : Event op
    · obtain ⟨reads, writes, rfl⟩ := event
      have event : Event (.serve reads writes) := ⟨reads, writes, rfl⟩
      obtain ⟨kept, running, _, ⟨shut, rfl⟩ | ⟨connected, _⟩⟩ := serve_cases permitted stepped
      · refine ⟨?_, ?_, kept, ih.answers⟩
        · simp only [List.mem_append, List.mem_singleton, true_iff]
          exact ⟨_, .inr rfl, event⟩
        · constructor
          · intro broken
            simpa using broken.running
          · intro quiet
            exact absurd event (quiet _ (by simp))
      · -- The process still runs, so there has been no event, and the connection is broken.
        have quiet : ∀ op ∈ ops, ¬ Event op := by
          intro op member happened
          simpa [running] using ih.crashed_iff.mpr ⟨op, member, happened⟩
        exact absurd connected (ih.broken_iff.mpr quiet).state
    · have breaks := Session.broken_iff permitted stepped
      obtain ⟨_, deleted, crashed, _⟩ := server_frame event stepped
      refine ⟨?_, ?_, deleted ▸ ih.kept, (down_suffix event stepped).trans ih.answers⟩
      · rw [crashed, ih.crashed_iff]
        simp [or_and_right, exists_or, event]
      · rw [breaks, ih.broken_iff]
        simp [not_fails event, event, or_imp, forall_and]

end SimpleSrv.Nebula.Session
