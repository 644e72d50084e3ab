import SimpleSrv.Ef.Proxy
import SimpleSrv.Lib.Holdings

/-! The descriptors of a proxy that forwards many connections at a time. -/

namespace SimpleSrv.Ef

/-- A coroutine that `ef_routine_run` has started with `forward_proc`. -/
structure Forwarding where
  fd : Int
  proxy : Proxy := {}
  /-- `ef_proc` has closed `fd`. -/
  closed : Bool := false
  deriving DecidableEq, Repr

/--
The coroutines that run `forward_proc`, and the descriptors that they hold.

Nothing else of the process is modelled: not the descriptors of its listeners, of its poll and of
the greeting procedure, nor the clients that wait in a queue for a coroutine of the pool. A client
counts from the start of its coroutine on. Signals do not end the process.
-/
structure ProxyServer where
  forwardings : List Forwarding := []
  opened : List Int := []
  deriving DecidableEq, Repr

/-- What can happen next, with the coroutines in any order. -/
inductive ServerCall where
  /-- A coroutine is started for an accepted client, with this descriptor. -/
  | accept (fd : Int)
  /-- The next call of one of the coroutines returns. -/
  | call (k : Nat) (call : ProxyCall)
  /-- `ef_proc` closes the client's descriptor, as `forward_proc` has returned. -/
  | exit (k : Nat)
  deriving DecidableEq, Repr

namespace ProxyServer

/-- The descriptors after a call. -/
def openedBy (opened : List Int) (p : Proxy) : ProxyCall → List Int
  | .socket sockfd => if 0 ≤ sockfd then sockfd :: opened else opened
  | .close => opened.erase p.sockfd
  | .received _ | .ended _ | .connect _ | .write _ => opened

/-- One step of one coroutine, or a new one. -/
def step (s : ProxyServer) : ServerCall → Option ProxyServer
  | .accept fd =>
    some { forwardings := s.forwardings ++ [{ fd := fd }], opened := fd :: s.opened }
  | .call k call =>
    s.forwardings[k]?.bind fun f => (f.proxy.step call).map fun p =>
      { forwardings := s.forwardings.set k { f with proxy := p }
        opened := openedBy s.opened f.proxy call }
  | .exit k =>
    s.forwardings[k]?.bind fun f =>
      match f.proxy.pc with
      | .returned _ =>
        if f.closed then none
        else some
          { forwardings := s.forwardings.set k { f with closed := true }
            opened := s.opened.erase f.fd }
      | _ => none

/-- A new descriptor is none of these, and there are no more of them than the process leaves. -/
def Fresh (limit : Nat) (s : ProxyServer) (fd : Int) : Prop :=
  0 ≤ fd ∧ fd ∉ s.opened ∧ s.opened.length < limit

/-- What the kernel can answer about the upstream socket. -/
def Answers (limit : Nat) (s : ProxyServer) (p : Proxy) : ProxyCall → Prop
  | .socket sockfd => sockfd < 0 ∨ s.Fresh limit sockfd
  -- Without a socket, `ef_routine_connect` fails at its first call of `fcntl`.
  | .connect ret => p.sockfd < 0 → ret < 0
  | .received _ | .ended _ | .write _ | .close => True

/-- What the calls can return. -/
def Permitted (limit : Nat) (s : ProxyServer) : ServerCall → Prop
  | .accept fd => s.Fresh limit fd
  | .call k call =>
    ∀ f ∈ s.forwardings[k]?, f.proxy.Possible call ∧ s.Answers limit f.proxy call
  | .exit _ => True

instance (limit : Nat) (s : ProxyServer) (fd : Int) : Decidable (s.Fresh limit fd) :=
  inferInstanceAs (Decidable (_ ∧ _))

instance (limit : Nat) (s : ProxyServer) (p : Proxy) :
    (call : ProxyCall) → Decidable (s.Answers limit p call)
  | .socket _ => inferInstanceAs (Decidable (_ ∨ _))
  | .connect _ => inferInstanceAs (Decidable (_ → _))
  | .received _ | .ended _ | .write _ | .close => .isTrue trivial

instance (limit : Nat) (s : ProxyServer) : (call : ServerCall) → Decidable (s.Permitted limit call)
  | .accept fd => inferInstanceAs (Decidable (s.Fresh limit fd))
  | .call k _ => inferInstanceAs (Decidable (∀ f ∈ s.forwardings[k]?, _ ∧ _))
  | .exit _ => .isTrue trivial

end ProxyServer

namespace Proxy

/-- The descriptor of the upstream socket, while there is one. -/
def upstream (p : Proxy) : Option Int :=
  match p.pc with
  | .readClient | .socket _ => none
  | .connect _ | .upload _ | .readUpstream | .download .. | .close =>
    if 0 ≤ p.sockfd then some p.sockfd else none
  -- Only where the connect failed is there no call of `ef_routine_close` on the way out.
  | .returned _ => if p.ret < 0 ∧ 0 ≤ p.sockfd then some p.sockfd else none

/-- The descriptor of an upstream socket that `forward_proc` has left open. -/
def lost (p : Proxy) : Option Int :=
  if p.ret < 0 ∧ 0 ≤ p.sockfd then some p.sockfd else none

/-- What is known of the upstream socket at each place of `forward_proc`. -/
def Socketed (p : Proxy) : Prop :=
  match p.pc with
  | .readClient | .socket _ | .connect _ => p.ret = 0
  | .upload _ | .readUpstream | .download .. | .close => 0 ≤ p.ret ∧ 0 ≤ p.sockfd
  | .returned _ => True

end Proxy

namespace Proxy

variable {p q : Proxy} {call : ProxyCall}

/-- No call is made after the return. -/
theorem step_returned (returned : p.Returned) (call : ProxyCall) : p.step call = none := by
  obtain ⟨value, at_⟩ := returned
  cases call <;> simp [Proxy.step, at_]

/-- Before `forward_proc` returns, no socket is lost. -/
theorem Socketed.lost_none (known : p.Socketed) (stepped : p.step call = some q) :
    p.lost = none := by
  -- `ret` only becomes negative at the `connect` that ends the procedure.
  have ret : 0 ≤ p.ret := by
    unfold Socketed at known
    split at known
    · exact Int.le_of_eq known.symm
    · exact Int.le_of_eq known.symm
    · exact Int.le_of_eq known.symm
    · exact known.1
    · exact known.1
    · exact known.1
    · exact known.1
    · rename_i value at_
      rw [step_returned ⟨value, at_⟩] at stepped
      cases stepped
  exact if_neg fun lost => absurd lost.1 (Int.not_lt.mpr ret)

/-- The place of `forward_proc` tells which sockets there are. -/
theorem Socketed.step (known : p.Socketed) (stepped : p.step call = some q)
    (connects : ∀ ret, call = .connect ret → p.sockfd < 0 → ret < 0) : q.Socketed := by
  -- One case for each call; only `connect` adds something, namely that there is a socket.
  cases call with
  | received bytes =>
    simp only [Proxy.step] at stepped
    split at stepped
    · rename_i at_
      cases stepped
      simpa [Socketed, at_] using known
    · rename_i at_
      cases stepped
      simpa [Socketed, at_] using known
    · cases stepped
  | ended r =>
    simp only [Proxy.step] at stepped
    split at stepped
    · cases stepped
      exact trivial
    · rename_i at_
      cases stepped
      simpa [Socketed, at_] using known
    · cases stepped
  | socket sockfd =>
    simp only [Proxy.step] at stepped
    split at stepped
    · rename_i at_
      cases stepped
      simpa [Socketed, at_] using known
    · cases stepped
  | connect ret =>
    simp only [Proxy.step] at stepped
    split at stepped
    · split at stepped
      · cases stepped
        exact trivial
      · rename_i connected
        cases stepped
        have socket : 0 ≤ p.sockfd :=
          Int.not_lt.mp fun none => connected (connects ret rfl none)
        exact ⟨Int.not_lt.mp connected, socket⟩
    · cases stepped
  | write w =>
    simp only [Proxy.step] at stepped
    split at stepped
    · rename_i at_
      simp only [Socketed, at_] at known
      split at stepped
      · cases stepped
        exact known
      · cases stepped
        exact known
    · rename_i at_
      simp only [Socketed, at_] at known
      rename_i buffer wrt
      split at stepped
      · cases stepped
        exact known
      · cases stepped
        -- The inner loop goes on, or the next piece is read.
        by_cases goes : wrt + w.toNat < buffer.length
        · simpa [Socketed, goes] using known
        · simpa [Socketed, goes] using known
    · cases stepped
  | close =>
    simp only [Proxy.step] at stepped
    split at stepped
    · cases stepped
      exact trivial
    · cases stepped

/-- A socket is there from then on. -/
theorem upstream_socket {sockfd : Int} (stepped : p.step (.socket sockfd) = some q) :
    p.upstream = none ∧ q.upstream = if 0 ≤ sockfd then some sockfd else none := by
  -- Before the call there is none, whatever the variable holds.
  simp only [Proxy.step] at stepped
  split at stepped
  · rename_i at_
    cases stepped
    simp [upstream, at_]
  · cases stepped

/-- There is one wherever `forward_proc` writes. -/
theorem Socketed.upstream_write {w : Int} (known : p.Socketed)
    (stepped : p.step (.write w) = some q) : p.upstream = some p.sockfd := by
  -- Both writing loops come behind a successful `connect`.
  simp only [Proxy.step] at stepped
  split at stepped
  · rename_i at_
    simp only [Socketed, at_] at known
    simp [upstream, at_, known]
  · rename_i at_
    simp only [Socketed, at_] at known
    simp [upstream, at_, known]
  · cases stepped

/-- Closing ends it. -/
theorem Socketed.upstream_close (known : p.Socketed) (stepped : p.step .close = some q) :
    p.upstream = some p.sockfd ∧ q.upstream = none := by
  -- Nothing else closes it, so it is still the one that was made.
  simp only [Proxy.step] at stepped
  split at stepped
  · rename_i at_
    cases stepped
    simp only [Socketed, at_] at known
    simp [upstream, at_, known, Int.not_lt.mpr known.1]
  · cases stepped

/-- No other call changes anything about the socket. -/
theorem Socketed.upstream_same (known : p.Socketed) (stepped : p.step call = some q)
    (other : ∀ sockfd, call ≠ .socket sockfd) (open_ : call ≠ .close) :
    q.upstream = p.upstream := by
  -- The place moves on from one with the socket to another, or from one without it.
  cases call with
  | received bytes =>
    simp only [Proxy.step] at stepped
    split at stepped
    · rename_i at_
      cases stepped
      simp [upstream, at_]
    · rename_i at_
      cases stepped
      simp [upstream, at_]
    · cases stepped
  | ended r =>
    simp only [Proxy.step] at stepped
    split at stepped
    · rename_i at_
      cases stepped
      simp only [Socketed, at_] at known
      simp [upstream, at_, known]
    · rename_i at_
      cases stepped
      simp [upstream, at_]
    · cases stepped
  | socket sockfd => exact absurd rfl (other sockfd)
  | connect ret =>
    simp only [Proxy.step] at stepped
    split at stepped
    · rename_i at_
      split at stepped
      · rename_i fails
        cases stepped
        simp [upstream, at_, fails]
      · cases stepped
        simp [upstream, at_]
    · cases stepped
  | write w =>
    simp only [Proxy.step] at stepped
    split at stepped
    · rename_i at_
      split at stepped
      · cases stepped
        simp [upstream, at_]
      · cases stepped
        simp [upstream, at_]
    · rename_i buffer wrt at_
      split at stepped
      · cases stepped
        simp [upstream, at_]
      · cases stepped
        by_cases goes : wrt + w.toNat < buffer.length
        · simp [upstream, at_, goes]
        · simp [upstream, at_, goes]
    · cases stepped
  | close => exact absurd rfl open_

end Proxy

/-- The descriptors that a coroutine is responsible for. -/
def Forwarding.holds (f : Forwarding) : List Int :=
  (if f.closed then [] else [f.fd]) ++ f.proxy.upstream.toList

/-- What a coroutine has lost is among what it holds, which is more while it runs. -/
theorem Forwarding.lost_le (f : Forwarding) (known : f.proxy.Socketed) :
    f.proxy.lost.toList.length + (if f.closed then 0 else 1) ≤ f.holds.length := by
  -- The client's descriptor is held until the coroutine has closed it, and is not lost.
  have part : f.proxy.lost.toList.length ≤ f.proxy.upstream.toList.length := by
    unfold Proxy.Socketed at known
    unfold Proxy.lost Proxy.upstream
    split at known
    · simp [known]
    · simp [known]
    · simp [known]
    · simp [Int.not_lt.mpr known.1]
    · simp [Int.not_lt.mpr known.1]
    · simp [Int.not_lt.mpr known.1]
    · simp [Int.not_lt.mpr known.1]
    · exact Nat.le_refl _
  unfold Forwarding.holds
  cases f.closed <;> simp only [List.length_append] <;> simp <;> omega

namespace ProxyServer

variable {limit : Nat} {s t : ProxyServer} {calls later : List ServerCall} {call : ServerCall}

/-- The upstream sockets that nobody will ever close. -/
def lost (s : ProxyServer) : List Int := s.forwardings.filterMap fun f => f.proxy.lost

/-- What holds between the steps. -/
structure Inv (limit : Nat) (s : ProxyServer) : Prop where
  accounts : Accounts Forwarding.holds s.forwardings s.opened
  bound : s.opened.length ≤ limit
  socketed : ∀ f ∈ s.forwardings, f.proxy.Socketed
  ended : ∀ f ∈ s.forwardings, f.closed = true → f.proxy.Returned

/-- A call changes the descriptors of its own coroutine only, and the table along with them. -/
theorem Inv.accounts_call {k : Nat} {f : Forwarding} {call : ProxyCall} {q : Proxy}
    (inv : Inv limit s) (at_ : s.forwardings[k]? = some f) (answers : s.Answers limit f.proxy call)
    (moved : f.proxy.step call = some q) :
    Accounts Forwarding.holds (s.forwardings.set k { f with proxy := q })
      (openedBy s.opened f.proxy call) ∧ (openedBy s.opened f.proxy call).length ≤ limit := by
  -- `socket` acquires a descriptor, `close` releases it, and the other calls keep what there is.
  have known := inv.socketed f (List.mem_of_getElem? at_)
  have keeps (same : q.upstream = f.proxy.upstream) :
      Accounts Forwarding.holds (s.forwardings.set k { f with proxy := q }) s.opened :=
    inv.accounts.keep at_ (by simp [Forwarding.holds, same])
  cases call with
  | socket sockfd =>
    obtain ⟨none, some_⟩ := Proxy.upstream_socket moved
    simp only [openedBy]
    by_cases valid : 0 ≤ sockfd
    · obtain ⟨_, unused, room⟩ := answers.resolve_left (Int.not_lt.mpr valid)
      rw [if_pos valid] at some_ ⊢
      refine ⟨inv.accounts.acquire at_ ?_ unused, room⟩
      simp only [Forwarding.holds, some_, none, Option.toList_some, Option.toList_none,
        List.append_nil]
      exact List.perm_append_singleton _ _
    · rw [if_neg valid] at some_ ⊢
      exact ⟨keeps (some_.trans none.symm), inv.bound⟩
  | close =>
    obtain ⟨some_, none⟩ := known.upstream_close moved
    refine ⟨inv.accounts.release at_ ?_, Nat.le_trans List.length_erase_le inv.bound⟩
    simp only [Forwarding.holds, some_, none, Option.toList_some, Option.toList_none,
      List.append_nil]
    exact List.perm_append_singleton _ _
  | received | ended | connect | write =>
    exact ⟨keeps (known.upstream_same moved (by simp) (by simp)), inv.bound⟩

/-- The kernel keeps to its limit. -/
theorem Inv.step (inv : Inv limit s) (permitted : s.Permitted limit call)
    (stepped : s.step call = some t) : Inv limit t ∧ s.lost.Sublist t.lost := by
  -- An `accept` adds a coroutine, a call changes one of them, and `exit` closes the client's
  -- descriptor.
  cases call with
  | accept fd =>
    cases stepped
    refine ⟨⟨inv.accounts.add rfl permitted.2.1, permitted.2.2, ?_, ?_⟩, ?_⟩
    · intro f member
      rcases List.mem_append.mp member with old | new
      · exact inv.socketed f old
      · obtain rfl := List.mem_singleton.mp new
        exact rfl
    · intro f member closed
      rcases List.mem_append.mp member with old | new
      · exact inv.ended f old closed
      · obtain rfl := List.mem_singleton.mp new
        cases closed
    · simp [lost, List.filterMap_append]
  | call k call =>
    simp only [ProxyServer.step] at stepped
    obtain ⟨f, at_, stepped⟩ := Option.bind_eq_some_iff.mp stepped
    obtain ⟨q, moved, rfl⟩ := Option.map_eq_some_iff.mp stepped
    obtain ⟨_, answers⟩ := permitted f at_
    have known := inv.socketed f (List.mem_of_getElem? at_)
    obtain ⟨accounts, bound⟩ := inv.accounts_call at_ answers moved
    refine ⟨⟨accounts, bound, ?_, ?_⟩, ?_⟩
    · intro g member
      rcases List.mem_or_eq_of_mem_set member with old | rfl
      · exact inv.socketed g old
      · refine known.step moved fun ret same none => ?_
        subst same
        exact answers none
    · intro g member closed
      rcases List.mem_or_eq_of_mem_set member with old | rfl
      · exact inv.ended g old closed
      · -- A coroutine that has ended makes no call.
        rw [Proxy.step_returned (inv.ended f (List.mem_of_getElem? at_) closed)] at moved
        cases moved
    · exact filterMap_sublist_set _ at_ (known.lost_none moved)
  | exit k =>
    simp only [ProxyServer.step] at stepped
    obtain ⟨f, at_, stepped⟩ := Option.bind_eq_some_iff.mp stepped
    split at stepped
    · rename_i value returned
      split at stepped
      · cases stepped
      · rename_i open_
        cases stepped
        have member := List.mem_of_getElem? at_
        refine ⟨⟨inv.accounts.release at_ ?_, Nat.le_trans List.length_erase_le inv.bound, ?_, ?_⟩,
          ?_⟩
        · simp [Forwarding.holds, open_]
        · intro g inside
          rcases List.mem_or_eq_of_mem_set inside with old | rfl
          · exact inv.socketed g old
          · exact inv.socketed f member
        · intro g inside closed
          rcases List.mem_or_eq_of_mem_set inside with old | rfl
          · exact inv.ended g old closed
          · exact ⟨value, returned⟩
        · simp only [lost]
          rw [filterMap_set_eq (b := { f with closed := true }) _ at_ rfl]
    · cases stepped

/-- The invariant holds along every run, and what is lost stays lost. -/
theorem Inv.of_run (inv : Inv limit s) (run : Run ProxyServer.step (Permitted limit) s later t) :
    Inv limit t ∧ s.lost.Sublist t.lost := by
  -- By induction on the run; losses add up.
  induction run with
  | start => exact ⟨inv, .refl _⟩
  | next _ permitted stepped ih =>
    obtain ⟨next, lost⟩ := ih.1.step permitted stepped
    exact ⟨next, ih.2.trans lost⟩

/-- At first there is nothing. -/
theorem inv_new (limit : Nat) : Inv limit {} where
  accounts := ⟨.refl _, List.nodup_nil⟩
  bound := Nat.zero_le _
  socketed := fun f none => by cases none
  ended := fun f none => by cases none

/-- No coroutine has lost more than it holds. -/
theorem Inv.part (inv : Inv limit s) :
    ∀ f ∈ s.forwardings, f.proxy.lost.toList.length ≤ f.holds.length := by
  intro f member
  have own := f.lost_le (inv.socketed f member)
  omega

/-- What a coroutine holds beyond its loss is taken from the descriptors that are not lost. -/
theorem Inv.lost_add_le (inv : Inv limit s) {f : Forwarding} (more : Nat)
    (member : f ∈ s.forwardings) (beyond : f.proxy.lost.toList.length + more ≤ f.holds.length) :
    s.lost.length + more ≤ limit := by
  -- All that is lost is held by somebody, and all that is held is open.
  have all := length_filterMap_add_le (fun f : Forwarding => f.proxy.lost) inv.part member beyond
  have bound := inv.bound
  rw [inv.accounts.perm.length_eq] at bound
  exact Nat.le_trans all bound

/-- A socket is lost only while its coroutine still holds the descriptor of the client. -/
theorem Inv.lost_step (inv : Inv limit s) (permitted : s.Permitted limit call)
    (stepped : s.step call = some t) : t.lost = s.lost ∨ t.lost.length + 1 ≤ limit := by
  -- The coroutine that loses its socket has the client's descriptor still open, which takes one of
  -- the table.
  have next := (inv.step permitted stepped).1
  cases call with
  | accept fd =>
    cases stepped
    simp [lost, Proxy.lost]
  | call k call =>
    simp only [ProxyServer.step] at stepped
    obtain ⟨f, at_, stepped⟩ := Option.bind_eq_some_iff.mp stepped
    obtain ⟨q, moved, rfl⟩ := Option.map_eq_some_iff.mp stepped
    have inside : { f with proxy := q } ∈ s.forwardings.set k { f with proxy := q } :=
      List.mem_set (List.getElem?_eq_some_iff.mp at_).1 _
    have open_ : f.closed = false := by
      by_contra closed
      have ended := inv.ended f (List.mem_of_getElem? at_) (by simpa using closed)
      rw [Proxy.step_returned ended] at moved
      cases moved
    right
    refine next.lost_add_le 1 inside ?_
    have own := Forwarding.lost_le _ (next.socketed _ inside)
    simpa [open_] using own
  | exit k =>
    simp only [ProxyServer.step] at stepped
    obtain ⟨f, at_, stepped⟩ := Option.bind_eq_some_iff.mp stepped
    left
    split at stepped
    · split at stepped
      · cases stepped
      · cases stepped
        exact filterMap_set_eq _ at_ rfl
    · cases stepped

/-- At least one descriptor is never lost. -/
theorem Inv.lost_lt (inv : Inv limit s) (few : s.lost.length ≤ limit - 1)
    (run : Run ProxyServer.step (Permitted limit) s later t) : t.lost.length ≤ limit - 1 := by
  -- By induction on the run, where each new loss leaves one descriptor to its client.
  induction run with
  | start => exact few
  | next run permitted stepped ih =>
    rcases (inv.of_run run).1.lost_step permitted stepped with same | fewer
    · rw [same]
      exact ih
    · omega

/-- The descriptors that the coroutines hold, and who closes them. -/
structure Accounted (limit : Nat) (s : ProxyServer) : Prop where
  accounts : Accounts Forwarding.holds s.forwardings s.opened
  bound : s.opened.length ≤ limit
  apart : ∀ (k l : Nat) (f g : Forwarding) (fd : Int), s.forwardings[k]? = some f →
    s.forwardings[l]? = some g → fd ∈ f.holds → fd ∈ g.holds → k = l
  /-- When all coroutines have ended, only the sockets without a connection are held. -/
  idle : (∀ f ∈ s.forwardings, f.closed = true) → s.opened.Perm s.lost

/-- Every descriptor is closed by its own coroutine, unless the connect to upstream has failed. -/
theorem descriptors_accounted (run : Run ProxyServer.step (Permitted limit) {} calls s) :
    Accounted limit s := by
  -- Once all coroutines have ended, what they still hold is just what they have lost.
  have inv := ((inv_new limit).of_run run).1
  refine ⟨inv.accounts, inv.bound, fun k l f g fd first second held other =>
    inv.accounts.apart first second held other, fun ended => ?_⟩
  have same : ∀ f ∈ s.forwardings, f.holds = f.proxy.lost.toList := by
    intro f member
    obtain ⟨value, returned⟩ := inv.ended f member (ended f member)
    simp [Forwarding.holds, ended f member, Proxy.upstream, Proxy.lost, returned]
  rw [lost, List.filterMap_eq_flatMap_toList, ← List.flatMap_congr same]
  exact inv.accounts.perm

/-- The calls of a client whose connection to upstream is refused. -/
def refused (k : Nat) (sockfd : Int) : List ServerCall :=
  [.call k (.received [71]), .call k (.socket sockfd), .call k (.connect (-111)), .exit k]

/-- Such a coroutine has closed the client's descriptor only. -/
def refusedForwarding (sockfd : Int) : Forwarding :=
  { fd := 5, closed := true, proxy := ⟨.returned (-111), sockfd, -111, [71], [], [], []⟩ }

/-- The descriptor of the client is used again, while that of upstream stays open. -/
theorem descriptors_accounted_refused :
    Accounted 4 { forwardings := [refusedForwarding 6, { fd := 5 }], opened := [5, 6] } :=
  have run : Run ProxyServer.step (Permitted 4) {} (.accept 5 :: refused 0 6 ++ [.accept 5]) _ :=
    .of_execute (by decide)
  descriptors_accounted run

/-- What becomes of the sockets that have been lost. -/
structure Leaks (limit : Nat) (s t : ProxyServer) : Prop where
  kept : s.lost.Sublist t.lost
  bound : t.lost.length ≤ limit - 1
  /-- With one descriptor left for a client, nothing is written to anyone any more. -/
  final : s.lost.length + 1 = limit → ∀ k w, t.step (.call k (.write w)) = none

/-- A failed connect takes one descriptor for ever, and behind the last but one all is silent. -/
theorem leak_final (before : Run ProxyServer.step (Permitted limit) {} calls s)
    (run : Run ProxyServer.step (Permitted limit) s later t) : Leaks limit s t := by
  -- Writing takes a coroutine with two descriptors that are not lost, and the table has no room for
  -- both.
  obtain ⟨inv, kept⟩ := ((inv_new limit).of_run before).1.of_run run
  have bound := (inv_new limit).lost_lt (Nat.zero_le _) (before.trans run)
  refine ⟨kept, bound, fun full k w => ?_⟩
  simp only [ProxyServer.step]
  cases at_ : t.forwardings[k]? with
  | none => rfl
  | some f =>
    cases moved : f.proxy.step (.write w) with
    | none => simp [moved]
    | some q =>
      -- A coroutine that writes holds two descriptors, of which none is lost.
      have member := List.mem_of_getElem? at_
      have known := inv.socketed f member
      have open_ : f.closed = false := by
        by_contra closed
        rw [Proxy.step_returned (inv.ended f member (by simpa using closed))] at moved
        cases moved
      have two : f.holds.length = 2 := by
        simp [Forwarding.holds, open_, known.upstream_write moved]
      have all := inv.lost_add_le 2 member (by simp [known.lost_none moved, two])
      have before := kept.length_le
      omega

/-- Of two descriptors one is lost, and the next client is not served. -/
theorem leak_final_two :
    Leaks 2 { forwardings := [refusedForwarding 6], opened := [6] }
      { forwardings := [refusedForwarding 6, refusedForwarding (-1)], opened := [6] } := by
  have before : Run ProxyServer.step (Permitted 2) {} (.accept 5 :: refused 0 6)
      { forwardings := [refusedForwarding 6], opened := [6] } := .of_execute (by decide)
  have later : Run ProxyServer.step (Permitted 2)
      { forwardings := [refusedForwarding 6], opened := [6] } (.accept 5 :: refused 1 (-1))
      { forwardings := [refusedForwarding 6, refusedForwarding (-1)], opened := [6] } :=
    .of_execute (by decide)
  exact leak_final before later

end ProxyServer

end SimpleSrv.Ef
