import SimpleSrv.Ef.Greeting

/-! The greeting reaches the client of the proxy, however the two coroutines take turns. -/

namespace SimpleSrv.Ef

variable {p q : Proxy} {call : ProxyCall}

/-- What the proxy has read from upstream only changes by reading from there. -/
theorem Proxy.Moved.fromUpstream (moved : p.Moved call q) :
    q.fromUpstream = p.fromUpstream ∨ ∃ bytes, call = .received bytes ∧ p.pc = .readUpstream ∧
      q.fromUpstream = p.fromUpstream ++ bytes := by
  cases moved with
  | read bytes at_ => exact .inr ⟨bytes, rfl, at_, rfl⟩
  | _ => exact .inl rfl

namespace ProxiedGreeting

variable {s t : ProxiedGreeting} {calls : List RelayCall} {call : RelayCall}

/-- What is known of the three streams. -/
structure Inv (calls : List RelayCall) (s : ProxiedGreeting) : Prop where
  proxy : s.proxy.Inv (calls.filterMap RelayCall.proxy?)
  told : s.greeting.Told
  sent : s.proxy.fromUpstream <+: s.greeting.toPeer

/-- A call of one coroutine keeps what is known of the streams. -/
theorem Inv.step (inv : Inv calls s) (permitted : s.Permitted call)
    (stepped : s.step call = some t) : Inv (calls ++ [call]) t := by
  -- What the proxy reads from upstream is bounded by what has been sent there, which only grows.
  cases call with
  | proxy call =>
    obtain ⟨q, moved, rfl⟩ := Option.map_eq_some_iff.mp stepped
    refine ⟨?_, inv.told, ?_⟩
    · rw [List.filterMap_append]
      exact inv.proxy.step permitted.1 moved
    · rcases (Proxy.Moved.of_step moved).fromUpstream with same | ⟨bytes, rfl, at_, more⟩
      · exact same ▸ inv.sent
      · exact more ▸ permitted.2 at_
  | greeting call =>
    simp only [ProxiedGreeting.step] at stepped
    split at stepped
    · obtain ⟨g, moved, rfl⟩ := Option.map_eq_some_iff.mp stepped
      have moved := Greeting.Moved.of_step moved
      refine ⟨?_, inv.told.step moved, inv.sent.trans moved.toPeer_prefix⟩
      simpa [List.filterMap_cons, RelayCall.proxy?] using inv.proxy
    · cases stepped
  | run created =>
    simp only [ProxiedGreeting.step] at stepped
    split at stepped
    · cases stepped
      refine ⟨?_, inv.told, inv.sent⟩
      simpa [List.filterMap_cons, RelayCall.proxy?] using inv.proxy
    · cases stepped
  | exit =>
    simp only [ProxiedGreeting.step] at stepped
    split at stepped
    · split at stepped
      · cases stepped
      · cases stepped
        refine ⟨?_, inv.told, inv.sent⟩
        simpa [List.filterMap_cons, RelayCall.proxy?] using inv.proxy
    · cases stepped

/-- Along every run, it is known what has become of the streams. -/
theorem inv_of_run (run : Run step Permitted {} calls s) : Inv calls s := by
  induction run with
  | start => exact ⟨⟨rfl, rfl⟩, rfl, List.nil_prefix⟩
  | next _ permitted stepped ih => exact ih.step permitted stepped

/-- What the proxy has reached, as long as no call has reported an error. -/
def Along (s : ProxiedGreeting) : Prop :=
  match s.proxy.pc with
  | .readClient => s.connected = false ∧ s.proxy.fromClient = []
  | .socket buffer | .connect buffer => s.connected = false ∧ buffer ≠ []
  | .upload buffer => s.connected = true ∧ buffer ≠ []
  | .readUpstream | .download .. => s.connected = true ∧ s.proxy.toUpstream ≠ []
  | .close => s.connected = true ∧ s.closed = true ∧ s.proxy.fromUpstream = s.greeting.toPeer
  | .returned _ =>
    (s.connected = true ∧ s.closed = true ∧ s.proxy.fromUpstream = s.greeting.toPeer) ∨
      (s.connected = false ∧ s.proxy.fromClient = [])

/-- What is known besides, as long as no call has reported an error. -/
structure Careful (s : ProxiedGreeting) : Prop where
  along : s.Along
  begun : s.started = true → s.connected = true
  greeted : s.greeting.Returned → s.greeting.toPeer = respOk
  exited : s.closed = true → s.greeting.Returned

/-- A call of the proxy without an error takes it along. -/
theorem Along.proxy {call : ProxyCall} {q : Proxy} (along : s.Along)
    (smooth : s.Smooth (.proxy call)) (moved : s.proxy.Moved call q)
    (shape : t = { s with proxy := q, connected := connectedBy s.connected call }) : t.Along := by
  obtain ⟨⟨possible, streams⟩, good⟩ := smooth
  subst shape
  unfold Along at along
  -- By the place that the call is made at.
  cases moved with
  | fetched bytes at_ =>
    simp only [at_] at along
    exact ⟨along.1, possible.1⟩
  | nothing r at_ =>
    simp only [at_] at along
    exact .inr along
  | socket sockfd buffer at_ =>
    simp only [at_] at along
    exact along
  | refused ret buffer at_ fails => exact absurd fails good
  | connected ret buffer at_ open_ =>
    simp only [at_] at along
    exact ⟨decide_eq_true open_, along.2⟩
  | uploaded w buffer at_ taken =>
    simp only [at_] at along
    refine ⟨along.1, fun none => ?_⟩
    -- The write has accepted something, so the greeting procedure has something to read.
    obtain ⟨positive, _⟩ := possible.resolve_left (Int.not_lt.mpr taken)
    have length := congrArg List.length none
    have filled := List.length_pos_of_ne_nil along.2
    simp only [List.length_append, List.length_take, List.length_nil] at length
    omega
  | read bytes at_ =>
    simp only [at_] at along
    exact along
  | drained r at_ =>
    simp only [at_] at along
    obtain ⟨closed, all⟩ := (streams at_).resolve_left good
    exact ⟨along.1, closed, all⟩
  | downloaded w buffer wrt at_ taken =>
    simp only [at_] at along
    unfold Along
    by_cases goes : wrt + w.toNat < buffer.length
    · simpa [goes, connectedBy] using along
    · simpa [goes, connectedBy] using along
  | failed w at_ fails => exact absurd fails good
  | closed at_ =>
    simp only [at_] at along
    exact .inl along

/-- A proxy that is connected stays so. -/
theorem connectedBy_of_smooth {call : ProxyCall} (smooth : s.Smooth (.proxy call))
    (connected : s.connected = true) : connectedBy s.connected call = true := by
  -- Only a connect changes anything, and one that does not fail connects.
  cases call with
  | connect ret => exact decide_eq_true (Int.not_lt.mp smooth.2)
  | received | ended | socket | write | close => exact connected

/-- While the socket of the greeting procedure is open, the proxy has not come to its end. -/
theorem Along.of_open (along : s.Along) (open_ : s.closed = false) (proxy : t.proxy = s.proxy)
    (connected : t.connected = s.connected) : t.Along := by
  -- Only the last two places look at the descriptor of the greeting procedure.
  unfold Along at along ⊢
  rw [proxy, connected]
  split at along
  · exact along
  · exact along
  · exact along
  · exact along
  · exact along
  · exact along
  · simp [open_] at along
  · simp only [open_, Bool.false_eq_true, false_and, and_false, false_or] at along
    exact .inr along

/-- So do the calls of the greeting procedure, and in the end it has sent the whole answer. -/
theorem Careful.step (careful : Careful s) (inv : Inv calls s) (smooth : s.Smooth call)
    (stepped : s.step call = some t) : Careful t := by
  -- The greeting procedure runs only behind a connect, and its own end waits for all of the answer.
  cases call with
  | proxy call =>
    obtain ⟨q, moved, rfl⟩ := Option.map_eq_some_iff.mp stepped
    exact ⟨careful.along.proxy smooth (.of_step moved) rfl,
      fun started => connectedBy_of_smooth smooth (careful.begun started), careful.greeted,
      careful.exited⟩
  | greeting call =>
    simp only [ProxiedGreeting.step] at stepped
    split at stepped
    · rename_i started
      have connected := careful.begun started
      obtain ⟨g, moved, rfl⟩ := Option.map_eq_some_iff.mp stepped
      have moved := Greeting.Moved.of_step moved
      have open_ : s.closed = false := by
        by_contra closed
        obtain ⟨value, at_⟩ := careful.exited (by simpa using closed)
        cases moved <;> simp_all
      refine ⟨careful.along.of_open open_ rfl rfl, careful.begun, ?_, fun closed => ?_⟩
      · rintro ⟨value, at_⟩
        cases moved with
        | asked => cases at_
        | nothing r reading =>
          -- The stream would end only behind the end of the proxy, which waits for this one.
          obtain ⟨_, ⟨_, returned⟩, _⟩ := smooth.1.resolve_left smooth.2
          have along := careful.along
          simp [Along, returned, open_, connected] at along
        | wrote w wrt writing taken =>
          have told := inv.told
          simp only [Greeting.Told, writing] at told
          by_cases goes : wrt + w.toNat < respOk.length
          · simp [goes] at at_
          · show s.greeting.toPeer ++ (respOk.drop wrt).take w.toNat = respOk
            rw [told.2, ← List.take_add, List.take_of_length_le (Nat.not_lt.mp goes)]
        | failed w wrt writing fails => exact absurd fails smooth.2
      · rw [open_] at closed
        cases closed
    · cases stepped
  | run created =>
    simp only [ProxiedGreeting.step] at stepped
    split at stepped
    · rename_i waits
      cases stepped
      exact ⟨careful.along, fun _ => waits.1, careful.greeted, careful.exited⟩
    · cases stepped
  | exit =>
    simp only [ProxiedGreeting.step] at stepped
    split at stepped
    · rename_i value at_
      split at stepped
      · cases stepped
      · rename_i open_
        cases stepped
        exact ⟨careful.along.of_open (by simpa using open_) rfl rfl, careful.begun,
          careful.greeted, fun _ => ⟨value, at_⟩⟩
    · cases stepped

/-- Without an error, what is known besides holds along the run. -/
theorem careful_of_run (run : Run step Smooth {} calls s) : Careful s ∧ Inv calls s ∧
    ∀ call ∈ calls, ¬ call.Fails := by
  -- By induction on the run, with the invariant of the streams beside.
  induction run with
  | start =>
    refine ⟨⟨⟨rfl, rfl⟩, ?_, ?_, ?_⟩, inv_of_run (.start _), fun _ none => by cases none⟩
    · intro started
      cases started
    · rintro ⟨value, at_⟩
      cases at_
    · intro closed
      cases closed
  | next run smooth stepped ih =>
    obtain ⟨careful, inv, good⟩ := ih
    refine ⟨careful.step inv smooth stepped, inv.step smooth.1 stepped, fun call member => ?_⟩
    rcases List.mem_append.mp member with earlier | last
    · exact good call earlier
    · exact List.mem_singleton.mp last ▸ smooth.2

/-- A run whose calls report no error is a smooth one. -/
theorem smooth_of_run (run : Run step Permitted {} calls s) (good : ∀ call ∈ calls, ¬ call.Fails) :
    Run step Smooth {} calls s := by
  -- By induction on the run: the calls of a run are those of its steps.
  induction run with
  | start => exact .start _
  | next _ permitted stepped ih =>
    have before := ih fun call member => good call (List.mem_append_left _ member)
    exact before.next ⟨permitted, good _ (by simp)⟩ stepped

/-- What the client of the proxy gets. -/
structure Greets (calls : List RelayCall) (s : ProxiedGreeting) : Prop where
  order : s.proxy.toClient <+: respOk
  whole : s.proxy.Returned → (∀ call ∈ calls, ¬ call.Fails) →
    s.proxy.toClient = respOk ∨ s.proxy.fromClient = []

/-- When the proxy has returned without an error, a client that has sent something is greeted. -/
theorem Careful.greets (careful : Careful s) (inv : Inv calls s) (returned : s.proxy.Returned)
    (good : ∀ call ∈ calls, ¬ call.Fails) :
    s.proxy.toClient = respOk ∨ s.proxy.fromClient = [] := by
  -- The proxy stopped reading at the end of the stream, so it has passed all of the answer on.
  obtain ⟨value, at_⟩ := returned
  have along := careful.along
  simp only [Along, at_] at along
  rcases along with ⟨_, closed, all⟩ | ⟨_, nothing⟩
  · have ended : s.proxy.Over (calls.filterMap RelayCall.proxy?) := by
      simpa only [Proxy.Inv, at_] using inv.proxy
    have none : ∀ call ∈ calls.filterMap RelayCall.proxy?, ¬ call.Fails := by
      intro call member
      obtain ⟨relay, inside, own⟩ := List.mem_filterMap.mp member
      cases relay with
      | proxy other =>
        obtain rfl := Option.some.inj own
        exact good _ inside
      | greeting | run | exit => cases own
    left
    rw [(ended.exact none).1, all, careful.greeted (careful.exited closed)]
  · exact .inr nothing

/-- However the two coroutines take turns and whatever they write at a time. -/
theorem proxied_greeting (run : Run step Permitted {} calls s) : Greets calls s where
  -- The order holds in every run, by the streams alone; the whole answer needs the smooth ones.
  order := by
    have inv := inv_of_run run
    exact inv.proxy.delivered.2.trans (inv.sent.trans inv.told.isPrefix)
  whole := by
    intro returned good
    obtain ⟨careful, inv, _⟩ := careful_of_run (smooth_of_run run good)
    exact careful.greets inv returned good

/-- The coroutine comes late, and the answer is written in two pieces, and read in one. -/
theorem proxied_greeting_get : Greets
    [.proxy (.received [71]), .proxy (.socket 9), .proxy (.connect 0), .run false,
      .proxy (.write 1), .run true, .greeting (.received [71]), .greeting (.write 100),
      .greeting (.write 25), .exit, .proxy (.received respOk), .proxy (.write 125),
      .proxy (.ended 0), .proxy .close]
    { proxy := ⟨.returned 0, 9, 0, [71], [71], respOk, respOk⟩, connected := true, started := true
      greeting := ⟨.returned 0, [71], respOk⟩, closed := true } :=
  proxied_greeting (.of_execute (by decide +kernel))

/-- What is left to do of `forward_proc`, with two calls at least for each byte of the answer. -/
def proxyRank (p : Proxy) : Nat :=
  let left := 2 * (respOk.length - p.fromUpstream.length)
  match p.pc with
  | .readClient => left + 6
  | .socket _ => left + 5
  | .connect _ => left + 4
  | .upload _ => left + 3
  | .readUpstream => left + 2
  | .download buffer wrt => left + 2 + (buffer.length - wrt)
  | .close => 1
  | .returned _ => 0

/-- What is left to do of `greeting_proc`. -/
def greetingRank (g : Greeting) : Nat :=
  match g.pc with
  | .read => respOk.length + 1
  | .write wrt => respOk.length - wrt
  | .returned _ => 0

/-- The number of calls that there can still be. -/
def rank (s : ProxiedGreeting) : Nat :=
  proxyRank s.proxy + greetingRank s.greeting + (if s.started then 0 else 1) +
    if s.closed then 0 else 1

/-- Each call of the proxy brings it closer to its end. -/
theorem proxyRank_lt {call : ProxyCall} {q : Proxy} (inv : Inv calls s)
    (smooth : s.Smooth (.proxy call)) (moved : s.proxy.Moved call q) :
    proxyRank q < proxyRank s.proxy := by
  -- Reading is bounded by the length of the answer, and each write accepts at least a byte.
  obtain ⟨⟨possible, streams⟩, good⟩ := smooth
  cases moved with
  | fetched bytes at_ => simp [proxyRank, at_]
  | nothing r at_ => simp [proxyRank, at_]
  | socket sockfd buffer at_ => simp [proxyRank, at_]
  | refused ret buffer at_ fails => simp [proxyRank, at_]
  | connected ret buffer at_ open_ => simp [proxyRank, at_]
  | uploaded w buffer at_ taken => simp [proxyRank, at_]
  | read bytes at_ =>
    -- What is read belongs to the answer.
    have within := ((streams at_).trans inv.told.isPrefix).length_le
    have filled := List.length_pos_of_ne_nil possible.1
    rw [List.length_append] at within
    simp only [proxyRank, at_, List.length_append]
    omega
  | drained r at_ => simp [proxyRank, at_]
  | downloaded w buffer wrt at_ taken =>
    have known := inv.proxy
    simp only [Proxy.Inv, at_] at known
    have positive := (possible.resolve_left (Int.not_lt.mpr taken)).1
    by_cases goes : wrt + w.toNat < buffer.length
    · simp only [proxyRank, at_, if_pos goes]
      omega
    · simp only [proxyRank, at_, if_neg goes]
      omega
  | failed w at_ fails => exact absurd fails good
  | closed at_ => simp [proxyRank, at_]

/-- So does each call of the greeting procedure. -/
theorem greetingRank_lt {call : ProxyCall} {g : Greeting} (inv : Inv calls s)
    (smooth : s.Smooth (.greeting call)) (moved : s.greeting.Moved call g) :
    greetingRank g < greetingRank s.greeting := by
  -- Each write accepts at least a byte of the answer.
  have told := inv.told
  cases moved with
  | asked bytes at_ => simp [greetingRank, at_]
  | nothing r at_ => simp [greetingRank, at_]
  | wrote w wrt at_ taken =>
    simp only [Greeting.Told, at_] at told
    have positive := (smooth.1.resolve_left (Int.not_lt.mpr taken)).1
    by_cases goes : wrt + w.toNat < respOk.length
    · simp only [greetingRank, at_, if_pos goes]
      omega
    · simp only [greetingRank, at_, if_neg goes]
      omega
  | failed w wrt at_ fails => exact absurd fails smooth.2

/-- Every call uses up something of the rank. -/
theorem rank_lt (inv : Inv calls s) (provided : s.Provided call)
    (stepped : s.step call = some t) : rank t < rank s := by
  -- A call lowers the rank of its own coroutine and leaves the other's.
  cases call with
  | proxy call =>
    obtain ⟨q, moved, rfl⟩ := Option.map_eq_some_iff.mp stepped
    have lower := proxyRank_lt inv provided.1 (.of_step moved)
    simp only [rank]
    omega
  | greeting call =>
    simp only [ProxiedGreeting.step] at stepped
    split at stepped
    · obtain ⟨g, moved, rfl⟩ := Option.map_eq_some_iff.mp stepped
      have lower := greetingRank_lt inv provided.1 (.of_step moved)
      simp only [rank]
      omega
    · cases stepped
  | run created =>
    simp only [ProxiedGreeting.step] at stepped
    split at stepped
    · rename_i waits
      have idle : s.started = false := by simpa using waits.2
      cases stepped
      cases created with
      | false => exact absurd rfl provided.2
      | true =>
        simp only [rank, idle, Bool.false_eq_true, if_false, if_true]
        omega
    · cases stepped
  | exit =>
    simp only [ProxiedGreeting.step] at stepped
    split at stepped
    · split at stepped
      · cases stepped
      · rename_i open_
        cases stepped
        simp only [rank, if_neg open_, if_true]
        omega
    · cases stepped

/-- While the proxy waits for upstream, the other side has something to do, or all is there. -/
theorem exists_call_upstream (careful : Careful s) (inv : Inv calls s)
    (at_ : s.proxy.pc = .readUpstream) : ∃ call, s.Smooth call ∧ s.step call ≠ none := by
  -- Either a byte is on its way, or the greeting procedure is at a place where it can go on.
  have along := careful.along
  simp only [Along, at_] at along
  obtain ⟨rest, split_⟩ := inv.sent
  cases rest with
  | cons byte rest =>
    -- A byte is on its way.
    refine ⟨.proxy (.received [byte]), ⟨⟨⟨by simp, by simp [bufferSize]⟩, fun _ => ?_⟩, id⟩, ?_⟩
    · exact ⟨rest, by simpa using split_⟩
    · simp [ProxiedGreeting.step, Proxy.step, at_]
  | nil =>
    rw [List.append_nil] at split_
    cases closed : s.closed with
    | true =>
      refine ⟨.proxy (.ended 0), ⟨⟨Int.le_refl 0, fun _ => .inr ⟨closed, split_⟩⟩, ?_⟩, ?_⟩
      · simp [RelayCall.Fails, ProxyCall.Fails]
      · simp [ProxiedGreeting.step, Proxy.step, at_]
    | false =>
      by_cases started : s.started = true
      case neg =>
        have idle : s.started = false := by simpa using started
        refine ⟨.run true, ⟨trivial, id⟩, ?_⟩
        simp [ProxiedGreeting.step, along.1, idle]
      have told := inv.told
      cases place : s.greeting.pc with
      | read =>
        -- The proxy has sent something, which is there to be read.
        simp only [Greeting.Told, place] at told
        obtain ⟨byte, more, sent⟩ := List.exists_cons_of_ne_nil along.2
        refine ⟨.greeting (.received [byte]), ⟨⟨by simp, by simp [bufferSize], ?_⟩, id⟩, ?_⟩
        · exact ⟨more, by simp [told, sent]⟩
        · simp [ProxiedGreeting.step, Greeting.step, place, started]
      | write wrt =>
        simp only [Greeting.Told, place] at told
        -- The rest of the answer may be accepted at once.
        refine ⟨.greeting (.write ((respOk.length - wrt : Nat) : Int)),
          ⟨.inr ⟨by omega, ?_⟩, ?_⟩, ?_⟩
        · simp [Greeting.requested, place]
        · simp [RelayCall.Fails, ProxyCall.Fails]
        · simp only [ProxiedGreeting.step, started, if_true, Greeting.step, place]
          split <;> simp
      | returned value =>
        refine ⟨.exit, ⟨trivial, id⟩, ?_⟩
        simp [ProxiedGreeting.step, place, closed]

/-- As long as the proxy has not returned, some call can return without an error. -/
theorem exists_call (careful : Careful s) (inv : Inv calls s) (open_ : ¬ s.proxy.Returned) :
    ∃ call, s.Smooth call ∧ s.step call ≠ none := by
  -- At each place of the proxy, a call with an answer that the kernel may give and that is no
  -- error.
  have along := careful.along
  have known := inv.proxy
  cases at_ : s.proxy.pc with
  | readClient =>
    refine ⟨.proxy (.ended 0), ⟨⟨Int.le_refl 0, by simp [at_]⟩, ?_⟩, ?_⟩
    · simp [RelayCall.Fails, ProxyCall.Fails]
    · simp [ProxiedGreeting.step, Proxy.step, at_]
  | socket buffer =>
    refine ⟨.proxy (.socket 0), ⟨⟨trivial, by simp [at_]⟩, ?_⟩, ?_⟩
    · simp [RelayCall.Fails, ProxyCall.Fails]
    · simp [ProxiedGreeting.step, Proxy.step, at_]
  | connect buffer =>
    refine ⟨.proxy (.connect 0), ⟨⟨trivial, by simp [at_]⟩, ?_⟩, ?_⟩
    · simp [RelayCall.Fails, ProxyCall.Fails]
    · simp [ProxiedGreeting.step, Proxy.step, at_]
  | upload buffer =>
    simp only [Along, at_] at along
    have filled := List.length_pos_of_ne_nil along.2
    refine ⟨.proxy (.write buffer.length), ⟨⟨.inr ⟨by omega, ?_⟩, by simp [at_]⟩, ?_⟩, ?_⟩
    · simp [Proxy.requested, at_]
    · simp [RelayCall.Fails, ProxyCall.Fails]
    · simp only [ProxiedGreeting.step, Proxy.step, at_]
      split <;> simp
  | readUpstream => exact exists_call_upstream careful inv at_
  | download buffer wrt =>
    simp only [Proxy.Inv, at_] at known
    refine ⟨.proxy (.write ((buffer.length - wrt : Nat) : Int)),
      ⟨⟨.inr ⟨by omega, ?_⟩, by simp [at_]⟩, ?_⟩, ?_⟩
    · simp [Proxy.requested, at_]
    · simp [RelayCall.Fails, ProxyCall.Fails]
    · simp only [ProxiedGreeting.step, Proxy.step, at_]
      split <;> simp
  | close =>
    refine ⟨.proxy .close, ⟨⟨trivial, by simp [at_]⟩, id⟩, ?_⟩
    simp [ProxiedGreeting.step, Proxy.step, at_]
  | returned value => exact absurd ⟨value, at_⟩ open_

/-- The proxy has returned, and a client that has sent something has got the whole answer. -/
def Answered (s : ProxiedGreeting) : Prop :=
  s.proxy.Returned ∧ (s.proxy.toClient = respOk ∨ s.proxy.fromClient = [])

/-- Where a call can be made, one can be made that finds a coroutine. -/
theorem exists_provided (smooth : s.Smooth call) (moves : s.step call ≠ none) :
    ∃ call, s.Provided call ∧ s.step call ≠ none := by
  -- Only a start can lack one, and a start with a coroutine is possible at the same place.
  by_cases lacks : call = .run false
  · subst lacks
    simp only [ProxiedGreeting.step] at moves
    split at moves
    · rename_i waits
      exact ⟨.run true, ⟨⟨trivial, id⟩, by simp⟩, by simp [ProxiedGreeting.step, waits]⟩
    · exact absurd rfl moves
  · exact ⟨call, ⟨smooth, lacks⟩, moves⟩

/-- The calls without an error lead to the answer, if they find a coroutine. -/
theorem progresses : Progresses step Provided (fun s => ∃ calls, Run step Smooth {} calls s) rank
    Answered where
  -- A run that cannot go on has come to the end of the proxy.
  kept := fun s call t ⟨calls, run⟩ provided stepped =>
    ⟨calls ++ [call], run.next provided.1 stepped⟩
  lower := fun s call t ⟨_, run⟩ provided stepped =>
    rank_lt (careful_of_run run).2.1 provided stepped
  done := fun s ⟨_, run⟩ stuck => by
    obtain ⟨careful, inv, good⟩ := careful_of_run run
    have returned : s.proxy.Returned := by
      by_contra open_
      obtain ⟨call, smooth, moves⟩ := exists_call careful inv open_
      obtain ⟨other, provided, moves⟩ := exists_provided smooth moves
      exact moves (stuck other provided)
    exact ⟨returned, careful.greets inv returned good⟩

/-- Without an error the client gets its answer after so many calls that find a coroutine. -/
theorem greeting_arrives (run : Run step Permitted {} calls s)
    (good : ∀ call ∈ calls, ¬ call.Fails) : Finishes step Provided (rank s) Answered s :=
  progresses.finishes ⟨calls, smooth_of_run run good⟩

-- Without a coroutine for the greeting procedure, the proxy waits as long as it likes.
example : ProxiedGreeting.step { connected := true } (.run false) = some { connected := true } :=
  rfl

/-- From the beginning, there are at most three calls for each byte and nine more. -/
theorem greeting_arrives_at_once :
    rank {} = 3 * respOk.length + 9 ∧ Finishes step Provided (rank {}) Answered {} := by
  refine ⟨?_, greeting_arrives (.start _) (by simp)⟩
  simp only [rank, proxyRank, greetingRank, List.length_nil, Bool.false_eq_true, if_false]
  omega

end ProxiedGreeting

end SimpleSrv.Ef
