import Mathlib.Data.List.Infix
import SimpleSrv.Lib.Run

/-! The proxy procedure, and what it delivers of the two streams that it relays. -/

namespace SimpleSrv.Ef

/-- `BUFFER_SIZE`. -/
def bufferSize : Nat := 8192

/-- What a call of `forward_proc` returns. -/
inductive ProxyCall where
  /-- `ef_routine_read` has filled the beginning of the buffer. -/
  | received (bytes : List UInt8)
  /-- `ef_routine_read` has read nothing, at the end of the stream or with an error. -/
  | ended (r : Int)
  | socket (sockfd : Int)
  | connect (ret : Int)
  | write (w : Int)
  | close
  deriving DecidableEq, Repr

/-- The call that `forward_proc` makes next, with what its buffer still has to give. -/
inductive ProxyPc where
  | readClient
  | socket (buffer : List UInt8)
  | connect (buffer : List UInt8)
  | upload (buffer : List UInt8)
  | readUpstream
  /-- The inner loop, which has written this many bytes of the buffer. -/
  | download (buffer : List UInt8) (wrt : Nat)
  | close
  | returned (value : Int)
  deriving DecidableEq, Repr

/-- A run of `forward_proc`, with what went through the two sockets. -/
structure Proxy where
  pc : ProxyPc := .readClient
  sockfd : Int := 0
  ret : Int := 0
  fromClient : List UInt8 := []
  toUpstream : List UInt8 := []
  fromUpstream : List UInt8 := []
  toClient : List UInt8 := []
  deriving DecidableEq, Repr

namespace Proxy

/-- `forward_proc` from one call to the next, where `none` says that another call is due. -/
def step (p : Proxy) : ProxyCall → Option Proxy
  | .received bytes =>
    match p.pc with
    | .readClient => some { p with pc := .socket bytes, fromClient := p.fromClient ++ bytes }
    | .readUpstream =>
      some { p with pc := .download bytes 0, fromUpstream := p.fromUpstream ++ bytes }
    | _ => none
  | .ended r =>
    match p.pc with
    | .readClient => some { p with pc := .returned r }
    | .readUpstream => some { p with pc := .close }
    | _ => none
  | .socket sockfd =>
    match p.pc with
    | .socket buffer => some { p with pc := .connect buffer, sockfd := sockfd }
    | _ => none
  | .connect ret =>
    match p.pc with
    | .connect buffer =>
      -- The socket is not closed on this way out.
      if ret < 0 then some { p with pc := .returned ret, ret := ret }
      else some { p with pc := .upload buffer, ret := ret }
    | _ => none
  | .write w =>
    match p.pc with
    | .upload buffer =>
      if w < 0 then some { p with pc := .close }
      -- What was not written of the buffer is read over.
      else some { p with pc := .readUpstream, toUpstream := p.toUpstream ++ buffer.take w.toNat }
    | .download buffer wrt =>
      if w < 0 then some { p with pc := .close }
      else
        let wrt' := wrt + w.toNat
        some { p with
          pc := if wrt' < buffer.length then .download buffer wrt' else .readUpstream
          toClient := p.toClient ++ (buffer.drop wrt).take w.toNat }
    | _ => none
  | .close =>
    match p.pc with
    | .close => some { p with pc := .returned p.ret }
    | _ => none

/-- The number of bytes that the next write asks for. -/
def requested (p : Proxy) : Nat :=
  match p.pc with
  | .upload buffer => buffer.length
  | .download buffer wrt => buffer.length - wrt
  | _ => 0

/-- What the calls can return: some bytes within the buffer, and writes that accept something. -/
def Possible (p : Proxy) : ProxyCall → Prop
  | .received bytes => bytes ≠ [] ∧ bytes.length ≤ bufferSize
  | .ended r => r ≤ 0
  | .write w => w < 0 ∨ (0 < w ∧ w ≤ p.requested)
  | .socket _ | .connect _ | .close => True

instance (p : Proxy) (call : ProxyCall) : Decidable (p.Possible call) :=
  match call with
  | .received _ => inferInstanceAs (Decidable (_ ∧ _))
  | .ended _ => inferInstanceAs (Decidable (_ ≤ _))
  | .write _ => inferInstanceAs (Decidable (_ ∨ _))
  | .socket _ | .connect _ | .close => inferInstanceAs (Decidable True)

/-- `forward_proc` has returned. -/
def Returned (p : Proxy) : Prop := ∃ value, p.pc = .returned value

end Proxy

namespace ProxyCall

/-- The call reports an error. -/
def Fails : ProxyCall → Prop
  | .ended r | .socket r | .connect r | .write r => r < 0
  | .received _ | .close => False

/-- The bytes that a read has returned. -/
def received? : ProxyCall → Option (List UInt8)
  | .received bytes => some bytes
  | .ended _ | .socket _ | .connect _ | .write _ | .close => none

/-- What a write has returned. -/
def written? : ProxyCall → Option Int
  | .write w => some w
  | .received _ | .ended _ | .socket _ | .connect _ | .close => none

end ProxyCall

/-- The first write, which is the one to the upstream socket, accepts all that the client sent. -/
def AcceptsUpload (calls : List ProxyCall) : Prop :=
  ∀ w bytes, calls.findSome? ProxyCall.written? = some w →
    calls.findSome? ProxyCall.received? = some bytes → w = bytes.length

/-- The two streams are delivered up to some point, and entirely by calls without an error. -/
structure Relays (calls : List ProxyCall) (p : Proxy) : Prop where
  up : p.toUpstream <+: p.fromClient
  down : p.toClient <+: p.fromUpstream
  exact : p.Returned → (∀ call ∈ calls, ¬ call.Fails) →
    p.toUpstream = p.fromClient ∧ p.toClient = p.fromUpstream

namespace Proxy

/-- The client's bytes are read, and nothing else has happened. -/
structure Fetched (calls : List ProxyCall) (p : Proxy) (buffer : List UInt8) : Prop where
  read : calls.findSome? ProxyCall.received? = some buffer
  written : calls.findSome? ProxyCall.written? = none
  fromClient : p.fromClient = buffer
  toUpstream : p.toUpstream = []
  fromUpstream : p.fromUpstream = []
  toClient : p.toClient = []

/-- The one write to the upstream socket has been made. -/
structure Uploaded (calls : List ProxyCall) (p : Proxy) (w : Nat) : Prop where
  read : calls.findSome? ProxyCall.received? = some p.fromClient
  written : calls.findSome? ProxyCall.written? = some (w : Int)
  atMost : w ≤ p.fromClient.length
  toUpstream : p.toUpstream = p.fromClient.take w

/-- Nothing more is going to be read or written. -/
structure Over (calls : List ProxyCall) (p : Proxy) : Prop where
  up : p.toUpstream <+: p.fromClient
  down : p.toClient <+: p.fromUpstream
  exact : (∀ call ∈ calls, ¬ call.Fails) → p.toClient = p.fromUpstream ∧
    (p.toUpstream = p.fromClient ↔ AcceptsUpload calls)

/-- What is known of the streams at each place of `forward_proc`. -/
def Inv (calls : List ProxyCall) (p : Proxy) : Prop :=
  match p.pc with
  | .readClient => calls = [] ∧ p = {}
  | .socket buffer | .connect buffer | .upload buffer => p.Fetched calls buffer
  | .readUpstream => (∃ w, p.Uploaded calls w) ∧ p.toClient = p.fromUpstream
  | .download buffer wrt => (∃ w, p.Uploaded calls w) ∧ wrt < buffer.length ∧
      ∃ before, p.fromUpstream = before ++ buffer ∧ p.toClient = before ++ buffer.take wrt
  | .close | .returned _ => p.Over calls

end Proxy

namespace Proxy

variable {calls : List ProxyCall} {call : ProxyCall} {p q : Proxy} {buffer : List UInt8} {w : Nat}

/-- What the first read and the first write have returned does not change with later calls. -/
theorem Uploaded.more (uploaded : p.Uploaded calls w) (call : ProxyCall)
    (fromClient : q.fromClient = p.fromClient) (toUpstream : q.toUpstream = p.toUpstream) :
    q.Uploaded (calls ++ [call]) w where
  read := by rw [List.findSome?_append, uploaded.read, fromClient, Option.some_or]
  written := by rw [List.findSome?_append, uploaded.written, Option.some_or]
  atMost := fromClient ▸ uploaded.atMost
  toUpstream := by rw [fromClient, toUpstream, uploaded.toUpstream]

/-- The upstream server gets all that was read exactly if its one write accepted it. -/
theorem Uploaded.accepts (uploaded : p.Uploaded calls w) :
    p.toUpstream = p.fromClient ↔ AcceptsUpload calls := by
  -- What was sent is the beginning of what was read that the write reported.
  rw [uploaded.toUpstream]
  constructor
  · intro all n bytes written read
    obtain rfl := Option.some.inj (uploaded.written.symm.trans written)
    obtain rfl := Option.some.inj (uploaded.read.symm.trans read)
    -- Nothing is cut off, so the length is not cut short either.
    have same := congrArg List.length all
    have atMost := uploaded.atMost
    rw [List.length_take] at same
    omega
  · intro accepts
    have length := accepts w p.fromClient uploaded.written uploaded.read
    exact List.take_of_length_le (by omega)

/-- A procedure that has written all it could has nothing left to lose. -/
theorem Uploaded.finished (uploaded : p.Uploaded calls w) (down : p.toClient = p.fromUpstream) :
    p.Over calls where
  up := uploaded.toUpstream ▸ List.take_prefix _ _
  down := down ▸ List.prefix_rfl
  exact := fun _ => ⟨down, uploaded.accepts⟩

/-- After an error, only what has been written so far counts. -/
theorem Over.of_fails (up : p.toUpstream <+: p.fromClient) (down : p.toClient <+: p.fromUpstream)
    (member : call ∈ calls) (fails : call.Fails) : p.Over calls :=
  ⟨up, down, fun none => absurd fails (none call member)⟩

/-- A socket or a connection does not touch what was fetched. -/
theorem Fetched.more (fetched : p.Fetched calls buffer) (written : call.written? = none)
    (fromClient : q.fromClient = p.fromClient) (toUpstream : q.toUpstream = p.toUpstream)
    (fromUpstream : q.fromUpstream = p.fromUpstream) (toClient : q.toClient = p.toClient) :
    q.Fetched (calls ++ [call]) buffer where
  read := by rw [List.findSome?_append, fetched.read, Option.some_or]
  written := by
    rw [List.findSome?_append, fetched.written, Option.none_or]
    simp [written]
  fromClient := fromClient.trans fetched.fromClient
  toUpstream := toUpstream.trans fetched.toUpstream
  fromUpstream := fromUpstream.trans fetched.fromUpstream
  toClient := toClient.trans fetched.toClient

/-- As long as nothing is written, nothing is lost. -/
theorem Fetched.empty (fetched : p.Fetched calls buffer) :
    p.toUpstream <+: p.fromClient ∧ p.toClient <+: p.fromUpstream := by
  rw [fetched.toUpstream, fetched.toClient]
  exact ⟨List.nil_prefix, List.nil_prefix⟩

/-- The one write to the upstream socket sends a beginning of what was fetched. -/
theorem Fetched.upload (fetched : p.Fetched calls buffer) {w : Int} (positive : 0 < w)
    (atMost : w ≤ buffer.length) {pc : ProxyPc} :
    ({ p with pc := pc, toUpstream := p.toUpstream ++ buffer.take w.toNat } : Proxy).Uploaded
      (calls ++ [.write w]) w.toNat where
  -- The write is the first one, so the earlier calls have none.
  read := by
    rw [List.findSome?_append, fetched.read, Option.some_or]
    exact congrArg some fetched.fromClient.symm
  written := by
    rw [List.findSome?_append, fetched.written, Option.none_or]
    show some w = some (w.toNat : Int)
    rw [Int.toNat_of_nonneg (by omega)]
  atMost := by
    show w.toNat ≤ p.fromClient.length
    rw [fetched.fromClient]
    omega
  toUpstream := by
    show p.toUpstream ++ buffer.take w.toNat = p.fromClient.take w.toNat
    rw [fetched.toUpstream, fetched.fromClient, List.nil_append]

/-- A write of the inner loop leaves it in the loop, or it has come to the end of the buffer. -/
theorem Uploaded.download {wrt : Nat} {before : List UInt8} {n : Int}
    (uploaded : p.Uploaded calls w) (read : p.fromUpstream = before ++ buffer)
    (written : p.toClient = before ++ buffer.take wrt) :
    ({ p with
        pc := if wrt + n.toNat < buffer.length then .download buffer (wrt + n.toNat)
          else .readUpstream
        toClient := p.toClient ++ (buffer.drop wrt).take n.toNat } : Proxy).Inv
      (calls ++ [.write n]) := by
  have more : p.toClient ++ (buffer.drop wrt).take n.toNat =
      before ++ buffer.take (wrt + n.toNat) := by
    rw [written, List.append_assoc, ← List.take_add]
  unfold Inv
  -- The buffer has been written to its end, or a rest of it is left.
  by_cases goes : wrt + n.toNat < buffer.length
  · simp only [if_pos goes]
    exact ⟨⟨w, uploaded.more _ rfl rfl⟩, goes, before, read, more⟩
  · simp only [if_neg goes]
    refine ⟨⟨w, uploaded.more _ rfl rfl⟩, ?_⟩
    rw [more, read, List.take_of_length_le (by omega)]

/-- What the client or the upstream server sends is in the buffer, and nowhere else yet. -/
theorem Inv.received {bytes : List UInt8} (inv : p.Inv calls)
    (possible : p.Possible (.received bytes)) (stepped : p.step (.received bytes) = some q) :
    q.Inv (calls ++ [.received bytes]) := by
  -- There are two places where bytes can come in.
  unfold Inv at inv
  simp only [Proxy.step] at stepped
  split at stepped
  · rename_i at_
    simp only [at_] at inv
    obtain ⟨rfl, rfl⟩ := inv
    obtain rfl := Option.some.inj stepped
    exact ⟨rfl, rfl, rfl, rfl, rfl, rfl⟩
  · rename_i at_
    simp only [at_] at inv
    obtain ⟨⟨w, uploaded⟩, down⟩ := inv
    obtain rfl := Option.some.inj stepped
    refine ⟨⟨w, uploaded.more _ rfl rfl⟩, List.length_pos_of_ne_nil possible.1, ?_⟩
    exact ⟨p.fromUpstream, rfl, by simpa using down⟩
  · cases stepped

/-- A stream that ends, or fails, leaves nothing in the buffer. -/
theorem Inv.ended {r : Int} (inv : p.Inv calls) (stepped : p.step (.ended r) = some q) :
    q.Inv (calls ++ [.ended r]) := by
  -- A stream ends at the same two places.
  unfold Inv at inv
  simp only [Proxy.step] at stepped
  split at stepped
  · rename_i at_
    simp only [at_] at inv
    obtain ⟨rfl, rfl⟩ := inv
    obtain rfl := Option.some.inj stepped
    refine ⟨List.nil_prefix, List.nil_prefix, fun _ => ⟨rfl, iff_of_true rfl ?_⟩⟩
    exact fun _ _ none => by cases none
  · rename_i at_
    simp only [at_] at inv
    obtain ⟨⟨w, uploaded⟩, down⟩ := inv
    obtain rfl := Option.some.inj stepped
    exact (uploaded.more (q := { p with pc := .close }) (.ended r) rfl rfl).finished down
  · cases stepped

/-- Nothing is sent while the upstream connection is made. -/
theorem Inv.connect {ret : Int} (inv : p.Inv calls) (stepped : p.step (.connect ret) = some q) :
    q.Inv (calls ++ [.connect ret]) := by
  -- Both ways out of the call leave what was fetched.
  unfold Inv at inv
  simp only [Proxy.step] at stepped
  split at stepped
  · rename_i at_
    simp only [at_] at inv
    split at stepped
    · rename_i fails
      obtain rfl := Option.some.inj stepped
      exact .of_fails inv.empty.1 inv.empty.2 (List.mem_append_right _ (.head _)) fails
    · obtain rfl := Option.some.inj stepped
      exact inv.more rfl rfl rfl rfl rfl
  · cases stepped

/-- The request goes up with a single call, of which the rest of the buffer is dropped. -/
theorem Inv.uploads {w : Int} {buffer : List UInt8} (inv : p.Inv calls)
    (at_ : p.pc = .upload buffer) (possible : p.Possible (.write w))
    (stepped : p.step (.write w) = some q) : q.Inv (calls ++ [.write w]) := by
  -- A write that fails has sent nothing at all.
  simp only [Inv, at_] at inv
  simp only [Proxy.step, at_] at stepped
  split at stepped
  · rename_i fails
    obtain rfl := Option.some.inj stepped
    exact .of_fails inv.empty.1 inv.empty.2 (List.mem_append_right _ (.head _)) fails
  · rename_i accepted
    obtain rfl := Option.some.inj stepped
    have bounds := possible.resolve_left accepted
    simp only [requested, at_] at bounds
    refine ⟨⟨w.toNat, inv.upload bounds.1 bounds.2⟩, ?_⟩
    exact inv.toClient.trans inv.fromUpstream.symm

/-- The reply goes down with as many calls as it takes, each of which goes on behind the last. -/
theorem Inv.downloads {w : Int} {buffer : List UInt8} {wrt : Nat} (inv : p.Inv calls)
    (at_ : p.pc = .download buffer wrt) (possible : p.Possible (.write w))
    (stepped : p.step (.write w) = some q) : q.Inv (calls ++ [.write w]) := by
  -- What has been written of the buffer is behind what was written before it.
  simp only [Inv, at_] at inv
  simp only [Proxy.step, at_] at stepped
  obtain ⟨⟨n, uploaded⟩, within, before, read, written⟩ := inv
  split at stepped
  · rename_i fails
    obtain rfl := Option.some.inj stepped
    have member : ProxyCall.write w ∈ calls ++ [.write w] := List.mem_append_right _ (.head _)
    have up : p.toUpstream <+: p.fromClient := uploaded.toUpstream ▸ List.take_prefix _ _
    have down : p.toClient <+: p.fromUpstream := by
      rw [read, written]
      exact (List.prefix_append_right_inj before).mpr (List.take_prefix _ _)
    exact .of_fails up down member fails
  · rename_i accepted
    have bounds := possible.resolve_left accepted
    simp only [requested, at_] at bounds
    obtain rfl := Option.some.inj stepped
    exact uploaded.download read written

/-- The end of the handler does nothing to the streams. -/
theorem Inv.close (inv : p.Inv calls) (stepped : p.step .close = some q) :
    q.Inv (calls ++ [.close]) := by
  -- The call is neither a read nor a write.
  unfold Inv at inv
  simp only [Proxy.step] at stepped
  split at stepped
  · rename_i at_
    simp only [at_] at inv
    obtain rfl := Option.some.inj stepped
    refine ⟨inv.up, inv.down, fun none => ?_⟩
    have before := inv.exact fun call member => none call (List.mem_append_left _ member)
    refine ⟨before.1, before.2.trans ?_⟩
    simp [AcceptsUpload, List.findSome?_append, ProxyCall.written?, ProxyCall.received?]
  · cases stepped

/-- Every call that returns something possible keeps what is known of the streams. -/
theorem Inv.step (inv : p.Inv calls) (possible : p.Possible call) (stepped : p.step call = some q) :
    q.Inv (calls ++ [call]) := by
  cases call with
  | received bytes => exact inv.received possible stepped
  | ended r => exact inv.ended stepped
  | connect ret => exact inv.connect stepped
  | close => exact inv.close stepped
  | socket sockfd =>
    unfold Inv at inv
    simp only [Proxy.step] at stepped
    split at stepped
    · rename_i at_
      simp only [at_] at inv
      obtain rfl := Option.some.inj stepped
      exact inv.more rfl rfl rfl rfl rfl
    · cases stepped
  | write w =>
    -- There are two places where the handler writes.
    cases at_ : p.pc with
    | upload buffer => exact inv.uploads at_ possible stepped
    | download buffer wrt => exact inv.downloads at_ possible stepped
    | readClient | socket | connect | readUpstream | close | returned =>
      simp only [Proxy.step, at_] at stepped
      cases stepped

/-- Along every run, it is known at each place what has become of the streams. -/
theorem inv_of_run (run : Run step Possible {} calls p) : p.Inv calls := by
  -- The induction is on the run, whose calls grow at their end.
  induction run with
  | start => exact ⟨rfl, rfl⟩
  | next _ possible stepped ih => exact ih.step possible stepped

/-- What has been written is at each place a beginning of what has been read. -/
theorem Inv.delivered (inv : p.Inv calls) :
    p.toUpstream <+: p.fromClient ∧ p.toClient <+: p.fromUpstream := by
  -- By the place of the procedure, where only the inner loop is in the middle of a buffer.
  unfold Inv at inv
  split at inv
  · obtain ⟨_, rfl⟩ := inv
    exact ⟨List.nil_prefix, List.nil_prefix⟩
  · exact inv.empty
  · exact inv.empty
  · exact inv.empty
  · obtain ⟨⟨w, uploaded⟩, down⟩ := inv
    exact ⟨uploaded.toUpstream ▸ List.take_prefix _ _, down ▸ List.prefix_rfl⟩
  · obtain ⟨⟨w, uploaded⟩, _, before, read, written⟩ := inv
    refine ⟨uploaded.toUpstream ▸ List.take_prefix _ _, ?_⟩
    rw [read, written]
    exact (List.prefix_append_right_inj before).mpr (List.take_prefix _ _)
  · exact ⟨inv.up, inv.down⟩
  · exact ⟨inv.up, inv.down⟩

end Proxy

open Proxy

/--
The streams are relayed as they should exactly if, once the procedure has returned, the one write
to the upstream socket has accepted all that the client sent, or some call has reported an error.
-/
theorem relays_iff {calls : List ProxyCall} {p : Proxy} (run : Run Proxy.step Possible {} calls p) :
    Relays calls p ↔
      (p.Returned → (∃ call ∈ calls, call.Fails) ∨ AcceptsUpload calls) := by
  have inv := inv_of_run run
  obtain ⟨up, down⟩ := inv.delivered
  -- Only what holds of a procedure that has returned is left to compare.
  constructor
  · rintro relays returned
    by_cases fails : ∃ call ∈ calls, call.Fails
    · exact .inl fails
    · have none : ∀ call ∈ calls, ¬ call.Fails := fun call member failed =>
        fails ⟨call, member, failed⟩
      obtain ⟨value, at_⟩ := returned
      have ended : p.Over calls := by simpa only [Proxy.Inv, at_] using inv
      exact .inr ((ended.exact none).2.mp (relays.exact ⟨value, at_⟩ none).1)
  · intro holds
    refine ⟨up, down, fun returned none => ?_⟩
    obtain ⟨value, at_⟩ := returned
    have ended : p.Over calls := by simpa only [Proxy.Inv, at_] using inv
    rcases holds ⟨value, at_⟩ with ⟨call, member, fails⟩ | accepts
    · exact absurd fails (none call member)
    · exact ⟨(ended.exact none).2.mpr accepts, (ended.exact none).1⟩

/-- The calls of a run that reads two bytes, of which the upstream socket accepts this many. -/
def briefCalls (w : Int) : List ProxyCall :=
  [.received [71, 69], .socket 9, .connect 0, .write w, .ended 0, .close]

/-- Such a run comes to its end. -/
theorem briefCalls_run {w : Int} (positive : 0 < w) (atMost : w ≤ 2) :
    Run Proxy.step Possible {} (briefCalls w)
      { pc := .returned 0, sockfd := 9, fromClient := [71, 69]
        toUpstream := [71, 69].take w.toNat } := by
  apply Run.cons (t := { pc := .socket [71, 69], fromClient := [71, 69] })
    ⟨by simp, by simp [bufferSize]⟩ rfl
  apply Run.cons (t := { pc := .connect [71, 69], sockfd := 9, fromClient := [71, 69] }) trivial rfl
  apply Run.cons (t := { pc := .upload [71, 69], sockfd := 9, fromClient := [71, 69] }) trivial rfl
  -- The short write is taken for a complete one.
  apply Run.cons (t := { pc := .readUpstream, sockfd := 9, fromClient := [71, 69]
                         toUpstream := [71, 69].take w.toNat })
  · exact .inr ⟨positive, atMost⟩
  · simp [Proxy.step, Int.not_lt.mpr (Int.le_of_lt positive)]
  apply Run.cons (t := { pc := .close, sockfd := 9, fromClient := [71, 69]
                         toUpstream := [71, 69].take w.toNat })
  · exact Int.le_refl 0
  · rfl
  exact .cons trivial rfl (.start _)

/-- Two bytes that are accepted at once are relayed. -/
theorem briefCalls_relays : Relays (briefCalls 2)
    { pc := .returned 0, sockfd := 9, fromClient := [71, 69], toUpstream := [71, 69] } := by
  apply (relays_iff (briefCalls_run (w := 2) (by decide) (by decide))).mpr
  intro _
  refine .inr fun w bytes written read => ?_
  obtain rfl := Option.some.inj written
  obtain rfl := Option.some.inj read
  rfl

/-- Of two bytes, the second one is lost when the upstream socket accepts only one. -/
theorem short_upload_drops : ∃ p : Proxy,
    Run Proxy.step Possible {} (briefCalls 1) p ∧ (∀ call ∈ briefCalls 1, ¬ call.Fails) ∧
      p.Returned ∧ p.fromClient = [71, 69] ∧ p.toUpstream = [71] ∧ ¬ Relays (briefCalls 1) p := by
  have none : ∀ call ∈ briefCalls 1, ¬ call.Fails := by simp [briefCalls, ProxyCall.Fails]
  refine ⟨_, briefCalls_run (by decide) (by decide), none, ⟨0, rfl⟩, rfl, rfl, fun relays => ?_⟩
  exact absurd (relays.exact ⟨0, rfl⟩ none).1 (by decide)

end SimpleSrv.Ef
