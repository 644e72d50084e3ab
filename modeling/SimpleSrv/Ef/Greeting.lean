import SimpleSrv.Ef.Proxy
import SimpleSrv.Lib.Progress

/-! The proxy in front of the greeting procedure, which is what the main program runs. -/

namespace SimpleSrv.Ef

/-- `resp_ok`, without the zero at its end. -/
@[irreducible] def respOk : List UInt8 :=
  ("HTTP/1.1 200 OK\r\nConnection: close\r\nContent-Length: 26\r\n" ++
    "Content-Type: text/plain; charset=utf-8\r\n\r\nWelcome to the EFramework!").toList.map
      fun char => UInt8.ofNat char.toNat

/-- The call that `greeting_proc` makes next. -/
inductive GreetingPc where
  | read
  /-- The loop, which has written this many bytes. -/
  | write (wrt : Nat)
  | returned (value : Int)
  deriving DecidableEq, Repr

/-- A run of `greeting_proc`, with what went through its socket. -/
structure Greeting where
  pc : GreetingPc := .read
  fromPeer : List UInt8 := []
  toPeer : List UInt8 := []
  deriving DecidableEq, Repr

namespace Greeting

/-- `greeting_proc` from one call to the next. -/
def step (g : Greeting) : ProxyCall → Option Greeting
  | .received bytes =>
    match g.pc with
    | .read => some { g with pc := .write 0, fromPeer := g.fromPeer ++ bytes }
    | _ => none
  | .ended r =>
    match g.pc with
    | .read => some { g with pc := .returned r }
    | _ => none
  | .write w =>
    match g.pc with
    | .write wrt =>
      if w < 0 then some { g with pc := .returned w }
      else
        let wrt' := wrt + w.toNat
        some { g with
          pc := if wrt' < respOk.length then .write wrt' else .returned 0
          toPeer := g.toPeer ++ (respOk.drop wrt).take w.toNat }
    | _ => none
  | .socket _ | .connect _ | .close => none

/-- The number of bytes that the next write asks for. -/
def requested (g : Greeting) : Nat :=
  match g.pc with
  | .write wrt => respOk.length - wrt
  | _ => 0

/-- `greeting_proc` has returned. -/
def Returned (g : Greeting) : Prop := ∃ value, g.pc = .returned value

end Greeting

/--
A forwarded connection, whose upstream server is the greeting procedure.

Both procedures take their coroutines from one pool, of which the other connections are not
modelled: they may leave a coroutine for the greeting procedure or not. That the loop accepts and
queues the connection is taken for granted, and so is that no signal ends the process.
-/
structure ProxiedGreeting where
  proxy : Proxy := {}
  /-- The connect to upstream has succeeded. -/
  connected : Bool := false
  /-- The greeting procedure has got its coroutine. -/
  started : Bool := false
  greeting : Greeting := {}
  /-- `ef_proc` has closed the socket of the greeting procedure. -/
  closed : Bool := false
  deriving DecidableEq, Repr

/-- The next call of one of the two coroutines, in any order. -/
inductive RelayCall where
  | proxy (call : ProxyCall)
  | greeting (call : ProxyCall)
  /-- The loop calls `ef_routine_run` for the queued connection, and the pool has a coroutine. -/
  | run (created : Bool)
  /-- `ef_proc` closes the socket, as `greeting_proc` has returned. -/
  | exit
  deriving DecidableEq, Repr

/-- The call reports an error. -/
def RelayCall.Fails : RelayCall → Prop
  | .proxy call | .greeting call => call.Fails
  | .run _ | .exit => False

/-- The call is one of the proxy. -/
def RelayCall.proxy? : RelayCall → Option ProxyCall
  | .proxy call => some call
  | .greeting _ | .run _ | .exit => none

namespace ProxiedGreeting

/-- Whether the proxy is connected to upstream after a call. -/
def connectedBy (connected : Bool) : ProxyCall → Bool
  | .connect ret => decide (0 ≤ ret)
  | .received _ | .ended _ | .socket _ | .write _ | .close => connected

/-- One call of one of the two coroutines. -/
def step (s : ProxiedGreeting) : RelayCall → Option ProxiedGreeting
  | .proxy call =>
    (s.proxy.step call).map fun p =>
      { s with proxy := p, connected := connectedBy s.connected call }
  | .greeting call =>
    if s.started then (s.greeting.step call).map fun g => { s with greeting := g } else none
  | .run created =>
    -- Without a coroutine the connection stays in the queue until the next turn of the loop.
    if s.connected ∧ !s.started then some { s with started := created } else none
  | .exit =>
    match s.greeting.pc with
    | .returned _ => if s.closed then none else some { s with closed := true }
    | _ => none

/-- What the proxy can read of the stream that comes from upstream. -/
def FromGreeting (s : ProxiedGreeting) : ProxyCall → Prop
  | .received bytes => s.proxy.fromUpstream ++ bytes <+: s.greeting.toPeer
  | .ended r => r < 0 ∨ (s.closed = true ∧ s.proxy.fromUpstream = s.greeting.toPeer)
  | .socket _ | .connect _ | .write _ | .close => True

/-- What the calls of the greeting procedure can return. -/
def ToGreeting (s : ProxiedGreeting) : ProxyCall → Prop
  | .received bytes =>
    bytes ≠ [] ∧ bytes.length ≤ bufferSize ∧ s.greeting.fromPeer ++ bytes <+: s.proxy.toUpstream
  -- The stream ends once the proxy has closed its socket, behind all of its bytes.
  | .ended r => r < 0 ∨ (r = 0 ∧ s.proxy.Returned ∧ s.greeting.fromPeer = s.proxy.toUpstream)
  | .write w => w < 0 ∨ (0 < w ∧ w ≤ s.greeting.requested)
  | .socket _ | .connect _ | .close => False

/-- What the calls can return. -/
def Permitted (s : ProxiedGreeting) : RelayCall → Prop
  | .proxy call => s.proxy.Possible call ∧ (s.proxy.pc = .readUpstream → s.FromGreeting call)
  | .greeting call => s.ToGreeting call
  | .run _ | .exit => True

instance (p : Proxy) : Decidable p.Returned :=
  match at_ : p.pc with
  | .returned value => .isTrue ⟨value, at_⟩
  | .readClient | .socket _ | .connect _ | .upload _ | .readUpstream | .download _ _ | .close =>
    .isFalse fun ⟨_, other⟩ => by simp [at_] at other

instance (s : ProxiedGreeting) : (call : ProxyCall) → Decidable (s.FromGreeting call)
  | .received _ => inferInstanceAs (Decidable (_ <+: _))
  | .ended _ => inferInstanceAs (Decidable (_ ∨ _))
  | .socket _ | .connect _ | .write _ | .close => .isTrue trivial

instance (s : ProxiedGreeting) : (call : ProxyCall) → Decidable (s.ToGreeting call)
  | .received _ => inferInstanceAs (Decidable (_ ∧ _))
  | .ended _ | .write _ => inferInstanceAs (Decidable (_ ∨ _))
  | .socket _ | .connect _ | .close => .isFalse id

instance (s : ProxiedGreeting) : (call : RelayCall) → Decidable (s.Permitted call)
  | .proxy _ => inferInstanceAs (Decidable (_ ∧ (_ → _)))
  | .greeting call => inferInstanceAs (Decidable (s.ToGreeting call))
  | .run _ | .exit => .isTrue trivial

/-- No call reports an error. -/
def Smooth (s : ProxiedGreeting) (call : RelayCall) : Prop := s.Permitted call ∧ ¬ call.Fails

/-- No call reports an error, and the pool has a coroutine for the greeting procedure. -/
def Provided (s : ProxiedGreeting) (call : RelayCall) : Prop :=
  s.Smooth call ∧ call ≠ .run false

end ProxiedGreeting

/-- The ways in which a call takes `forward_proc` from one place to another. -/
inductive Proxy.Moved (p : Proxy) : ProxyCall → Proxy → Prop where
  | fetched (bytes : List UInt8) (at_ : p.pc = .readClient) :
    Moved p (.received bytes) { p with pc := .socket bytes, fromClient := p.fromClient ++ bytes }
  | nothing (r : Int) (at_ : p.pc = .readClient) : Moved p (.ended r) { p with pc := .returned r }
  | socket (sockfd : Int) (buffer : List UInt8) (at_ : p.pc = .socket buffer) :
    Moved p (.socket sockfd) { p with pc := .connect buffer, sockfd := sockfd }
  | refused (ret : Int) (buffer : List UInt8) (at_ : p.pc = .connect buffer) (fails : ret < 0) :
    Moved p (.connect ret) { p with pc := .returned ret, ret := ret }
  | connected (ret : Int) (buffer : List UInt8) (at_ : p.pc = .connect buffer) (open_ : 0 ≤ ret) :
    Moved p (.connect ret) { p with pc := .upload buffer, ret := ret }
  | uploaded (w : Int) (buffer : List UInt8) (at_ : p.pc = .upload buffer) (taken : 0 ≤ w) :
    Moved p (.write w)
      { p with pc := .readUpstream, toUpstream := p.toUpstream ++ buffer.take w.toNat }
  | read (bytes : List UInt8) (at_ : p.pc = .readUpstream) :
    Moved p (.received bytes)
      { p with pc := .download bytes 0, fromUpstream := p.fromUpstream ++ bytes }
  | drained (r : Int) (at_ : p.pc = .readUpstream) : Moved p (.ended r) { p with pc := .close }
  | downloaded (w : Int) (buffer : List UInt8) (wrt : Nat) (at_ : p.pc = .download buffer wrt)
      (taken : 0 ≤ w) : Moved p (.write w)
      { p with
        pc := if wrt + w.toNat < buffer.length then .download buffer (wrt + w.toNat)
          else .readUpstream
        toClient := p.toClient ++ (buffer.drop wrt).take w.toNat }
  | failed (w : Int) (at_ : (∃ buffer, p.pc = .upload buffer) ∨ ∃ buffer wrt,
      p.pc = .download buffer wrt) (fails : w < 0) : Moved p (.write w) { p with pc := .close }
  | closed (at_ : p.pc = .close) : Moved p .close { p with pc := .returned p.ret }

/-- There are no others. -/
theorem Proxy.Moved.of_step {p q : Proxy} {call : ProxyCall} (stepped : p.step call = some q) :
    p.Moved call q := by
  -- By the call, and then by the place it is made at; at any other place it is not made.
  cases call with
  | received bytes =>
    simp only [Proxy.step] at stepped
    split at stepped
    · rename_i at_
      cases stepped
      exact .fetched bytes at_
    · rename_i at_
      cases stepped
      exact .read bytes at_
    · cases stepped
  | ended r =>
    simp only [Proxy.step] at stepped
    split at stepped
    · rename_i at_
      cases stepped
      exact .nothing r at_
    · rename_i at_
      cases stepped
      exact .drained r at_
    · cases stepped
  | socket sockfd =>
    simp only [Proxy.step] at stepped
    split at stepped
    · rename_i buffer at_
      cases stepped
      exact .socket sockfd buffer at_
    · cases stepped
  | connect ret =>
    simp only [Proxy.step] at stepped
    split at stepped
    · rename_i buffer at_
      split at stepped
      · rename_i fails
        cases stepped
        exact .refused ret buffer at_ fails
      · rename_i open_
        cases stepped
        exact .connected ret buffer at_ (Int.not_lt.mp open_)
    · cases stepped
  | write w =>
    simp only [Proxy.step] at stepped
    split at stepped
    · rename_i buffer at_
      split at stepped
      · rename_i fails
        cases stepped
        exact .failed w (.inl ⟨buffer, at_⟩) fails
      · rename_i taken
        cases stepped
        exact .uploaded w buffer at_ (Int.not_lt.mp taken)
    · rename_i buffer wrt at_
      split at stepped
      · rename_i fails
        cases stepped
        exact .failed w (.inr ⟨buffer, wrt, at_⟩) fails
      · rename_i taken
        cases stepped
        exact .downloaded w buffer wrt at_ (Int.not_lt.mp taken)
    · cases stepped
  | close =>
    simp only [Proxy.step] at stepped
    split at stepped
    · rename_i at_
      cases stepped
      exact .closed at_
    · cases stepped

namespace Greeting

variable {g h : Greeting} {call : ProxyCall}

/-- What has been sent of the answer at each place of `greeting_proc`. -/
def Told (g : Greeting) : Prop :=
  match g.pc with
  | .read => g = {}
  | .write wrt => wrt < respOk.length ∧ g.toPeer = respOk.take wrt
  | .returned _ => g.toPeer <+: respOk

/-- The ways in which a call takes `greeting_proc` from one place to another. -/
inductive Moved (g : Greeting) : ProxyCall → Greeting → Prop where
  | asked (bytes : List UInt8) (at_ : g.pc = .read) :
    Moved g (.received bytes) { g with pc := .write 0, fromPeer := g.fromPeer ++ bytes }
  | nothing (r : Int) (at_ : g.pc = .read) : Moved g (.ended r) { g with pc := .returned r }
  | wrote (w : Int) (wrt : Nat) (at_ : g.pc = .write wrt) (taken : 0 ≤ w) : Moved g (.write w)
      { g with
        pc := if wrt + w.toNat < respOk.length then .write (wrt + w.toNat) else .returned 0
        toPeer := g.toPeer ++ (respOk.drop wrt).take w.toNat }
  | failed (w : Int) (wrt : Nat) (at_ : g.pc = .write wrt) (fails : w < 0) :
    Moved g (.write w) { g with pc := .returned w }

/-- There are no others. -/
theorem Moved.of_step (stepped : g.step call = some h) : g.Moved call h := by
  -- By the call; the greeting procedure makes three kinds of them.
  cases call with
  | received bytes =>
    simp only [Greeting.step] at stepped
    split at stepped
    · rename_i at_
      cases stepped
      exact .asked bytes at_
    · cases stepped
  | ended r =>
    simp only [Greeting.step] at stepped
    split at stepped
    · rename_i at_
      cases stepped
      exact .nothing r at_
    · cases stepped
  | write w =>
    simp only [Greeting.step] at stepped
    split at stepped
    · rename_i wrt at_
      split at stepped
      · rename_i fails
        cases stepped
        exact .failed w wrt at_ fails
      · rename_i taken
        cases stepped
        exact .wrote w wrt at_ (Int.not_lt.mp taken)
    · cases stepped
  | socket | connect | close => cases stepped

/-- The answer is never empty. -/
theorem respOk_pos : 0 < respOk.length := by decide +kernel

/-- A write goes on in the answer where the last one has stopped. -/
theorem Told.step (told : g.Told) (moved : g.Moved call h) : h.Told := by
  -- The inner loop writes the rest behind `wrt`, so the pieces join without a gap.
  cases moved with
  | asked bytes at_ =>
    simp only [Told, at_] at told
    subst told
    exact ⟨respOk_pos, rfl⟩
  | nothing r at_ =>
    simp only [Told, at_] at told
    subst told
    exact List.nil_prefix
  | wrote w wrt at_ taken =>
    simp only [Told, at_] at told
    have more : g.toPeer ++ (respOk.drop wrt).take w.toNat = respOk.take (wrt + w.toNat) := by
      rw [told.2, ← List.take_add]
    by_cases goes : wrt + w.toNat < respOk.length
    · simp only [Told, if_pos goes]
      exact ⟨goes, more⟩
    · simp only [Told, if_neg goes, more]
      exact List.take_prefix _ _
  | failed w wrt at_ fails =>
    simp only [Told, at_] at told
    simp only [Told, told.2]
    exact List.take_prefix _ _

/-- At each place, what has been sent is a beginning of the answer. -/
theorem Told.isPrefix (told : g.Told) : g.toPeer <+: respOk := by
  -- Nothing, a first part, or the answer as far as it was accepted.
  unfold Told at told
  split at told
  · rw [told]
    exact List.nil_prefix
  · rw [told.2]
    exact List.take_prefix _ _
  · exact told

/-- The socket only gets more bytes, and only by a write. -/
theorem Moved.toPeer_prefix (moved : g.Moved call h) : g.toPeer <+: h.toPeer := by
  cases moved with
  | wrote w wrt at_ taken => exact List.prefix_append _ _
  | asked | nothing | failed => exact List.prefix_rfl

end Greeting

end SimpleSrv.Ef
