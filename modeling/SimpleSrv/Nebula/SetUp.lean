import SimpleSrv.Nebula.ServerSteps

/-! A handler runs on a finished connection exactly when its event waits for the main reactor. -/

namespace SimpleSrv.Nebula

/-- The loop gets to a channel only when the main reactor has recorded its connection. -/
def FinishedFirst (s : Server) : Label → Prop
  | .sub i .next =>
    (s.reactors i).pc = .loop → ∀ ch ∈ (s.reactors i).batch.head?, s.main.building ≠ some ch
  | _ => True

/-- Every event finds its connection in place, and every `Close` finds and destroys its own. -/
def DispatchOk (s : Server) : Label → Prop
  | .sub i .next =>
    (s.reactors i).pc = .loop → ∀ ch ∈ (s.reactors i).batch.head?,
      s.WiredUp ch ∧ s.connections (s.fd ch) = some ch
  | .sub i .close => ∀ ch, (s.reactors i).pc = .handler ch → s.connections (s.fd ch) = some ch
  | .sub i .erase => ∀ ch fd, (s.reactors i).pc = .erase ch fd → s.connections fd = some ch
  | .sub i .destroy => ∀ ch conn, (s.reactors i).pc = .destroy ch conn → conn = some ch
  | _ => True

/-- No sub-reactor is busy with the connection that is set up. -/
def StartedLate (s : Server) : Prop :=
  ∀ i ch, (s.reactors i).pc = .check ch ∨ (s.reactors i).pc = .handler ch →
    s.main.building ≠ some ch

namespace ServerInv

variable {setting : Setting} {s t : Server} {i : Nat}

/-- A connection with a sub-reactor at another place than the deletion is not dying. -/
theorem not_dying (inv : ServerInv s) {ch : Nat} (own : s.loop ch = i)
    (apart : ∀ c conn, (s.reactors i).pc ≠ .destroy c conn) : ¬ s.Dying ch := by
  -- A connection is destroyed by its own loop only.
  rintro ⟨j, c, at_⟩
  obtain ⟨_, _, loop⟩ := inv.dying_own at_
  obtain rfl := loop.symm.trans own
  exact apart _ _ at_

/-- A step of the main reactor starts with a new connection, or goes on with the same one. -/
theorem main_building {op : MainOp} (stepped : s.mainStep setting op = some t) :
    t.reactors = s.reactors ∧ (t.main.building = s.main.building ∨ t.main.building = none) ∨
      t.main.building = some s.created ∧ ∀ j, (t.reactors j).pc = (s.reactors j).pc := by
  -- Only a construction names another connection, and only the record lets go of one.
  cases op with
  | construct fd =>
    have changes := Server.construct_changes (Option.ite_none_right_eq_some.mp stepped).2
    exact .inr ⟨by rw [changes.main]; rfl, fun j => (changes.places j).1⟩
  | setDeleteConnectionCallback | setOnConnectCallback =>
    simp only [Server.mainStep] at stepped
    split at stepped
    · rename_i conn at_
      obtain rfl := Option.some.inj stepped
      exact .inl ⟨rfl, .inl (by rw [at_]; rfl)⟩
    · cases stepped
  | record =>
    simp only [Server.mainStep] at stepped
    split at stepped
    · obtain rfl := Option.some.inj stepped
      exact .inl ⟨rfl, .inr rfl⟩
    · cases stepped

/-- Where every event waits, no sub-reactor gets ahead of the main reactor. -/
theorem startedLate (inv : ServerInv s) (late : StartedLate s) {label : Label}
    (first : FinishedFirst s label) (stepped : s.step setting label = some t) : StartedLate t := by
  -- A sub-reactor gets busy with a channel only by a step that the condition is about.
  cases label with
  | main op =>
    intro i ch busy
    rcases main_building stepped with ⟨same, building⟩ | ⟨building, pcs⟩
    · rw [same] at busy
      rcases building with building | building
      · rw [building]
        exact late i ch busy
      · rw [building]
        exact nofun
    · -- The new connection is younger than all that are served.
      rw [pcs i] at busy
      have place := inv.places i
      have live : ch ∈ s.live := by
        rcases busy with at_ | at_
        · rw [at_] at place
          exact place.1
        · rw [at_] at place
          exact place.1
      rw [building]
      exact fun equal => Nat.ne_of_lt (inv.known ch live) (Option.some.inj equal).symm
  | sub i op =>
    have move := LoopMove.of_step (Option.ite_none_right_eq_some.mp stepped).2
    intro j ch busy
    rw [move.main]
    by_cases here : j = i
    · subst here
      cases move with
      | start c rest at_ filled =>
        simp only [Server.setReactor, Function.update_self] at busy
        rcases busy with same | same
        · obtain rfl := LoopPc.check.inj same
          exact first at_ c (by rw [filled]; rfl)
        · cases same
      | call c at_ =>
        rw [Server.goOn_pc] at busy
        rcases busy with same | same
        · cases same
        · obtain rfl := LoopPc.handler.inj same
          exact late j c (.inl at_)
      | missed c at_ => exact late j ch busy
      | poll =>
        simp only [Server.setReactor, Function.update_self] at busy
        rcases busy with same | same <;> cases same
      | rest | skip | found | erase | nothing | shut | ret | back | again =>
        rw [Server.goOn_pc] at busy
        rcases busy with same | same <;> cases same
      | destroy =>
        rw [Server.destroyed, Server.goOn_pc] at busy
        rcases busy with same | same <;> cases same
    · rw [move.other here] at busy
      exact late j ch busy

/-- What is finished first is found in place. -/
theorem dispatchOk (inv : ServerInv s) (late : StartedLate s) {label : Label}
    (first : FinishedFirst s label) : DispatchOk s label := by
  -- A finished connection that is not dying stands in the table, by the invariant.
  cases label with
  | main op => trivial
  | sub i op =>
    have place := inv.places i
    cases op with
    | next =>
      intro at_ ch head
      obtain ⟨live, own⟩ := (inv.batches i).2 ch (List.mem_of_mem_head? head)
      have finished := first at_ ch head
      refine ⟨inv.wired ch live finished, inv.listed ch live finished (inv.not_dying own ?_)⟩
      rw [at_]
      exact fun _ _ => nofun
    | close =>
      intro ch at_
      rw [at_] at place
      refine inv.listed ch place.1 (late i ch (.inr at_)) (inv.not_dying place.2.1 ?_)
      rw [at_]
      exact fun _ _ => nofun
    | erase =>
      intro ch fd at_
      rw [at_] at place
      exact place.2.2.2.2
    | destroy =>
      intro ch conn at_
      rw [at_] at place
      exact place.1
    | poll | check | shut | ret | again => trivial

/-- What is found in place has been finished first. -/
theorem finishedFirst (inv : ServerInv s) {label : Label} (ok : DispatchOk s label) :
    FinishedFirst s label := by
  -- Only the start of a dispatch says something.
  cases label with
  | main op => trivial
  | sub i op =>
    cases op with
    | next => exact fun at_ ch head => (inv.table _ _ (ok at_ ch head).2).2.2
    | poll | check | close | erase | destroy | shut | ret | again => trivial

end ServerInv

/-- The server is in order, and no sub-reactor gets ahead of the main reactor. -/
structure LateInv (s : Server) : Prop where
  server : ServerInv s
  late : StartedLate s

/--
Every event of a run finds its connection in place exactly when each of them waits for the set-up.

With the callbacks and the entry in place, a `Close` finds, erases and destroys its own connection.
-/
theorem dispatch_in_place_iff (setting : Setting) (labels : List Label) (s : Server) :
    setting.Runs FinishedFirst labels s ↔ setting.Runs DispatchOk labels s := by
  -- Each discipline upgrades the next step to the other one.
  have initial : LateInv setting.server :=
    ⟨.initial setting, fun _ _ busy => by rcases busy with same | same <;> cases same⟩
  constructor
  · intro run
    exact run.strengthen initial
      (fun _ _ _ inv first stepped =>
        ⟨inv.server.step stepped, inv.server.startedLate inv.late first stepped⟩)
      fun _ _ _ inv first _ => inv.server.dispatchOk inv.late first
  · intro run
    exact run.strengthen (ServerInv.initial setting)
      (fun _ _ _ inv _ stepped => inv.step stepped) fun _ _ _ inv ok _ => inv.finishedFirst ok

/-- One sub-reactor, with the first descriptors in use. -/
def oneReactor : Setting where
  size := 1
  positive := by decide
  inUse := [0, 1, 2, 3, 4]
  onConnect := true

/-- Data arrives right behind the construction of the connection. -/
def earlyEvent : List Label := [.main (.construct 5), .sub 0 (.poll [(5, epollIn)])]

/-- The loop gets to a channel that has no read callback yet. -/
theorem early_event_finds_nothing :
    ¬ ∀ (setting : Setting) (labels : List Label) (s : Server),
      setting.Runs Anything labels s → setting.Runs DispatchOk labels s := by
  -- The event comes between the construction and the callback.
  intro claimed
  have facts : (execute (Server.step oneReactor) Anything oneReactor.server earlyEvent).map
      (fun s => ((s.reactors 0).pc, (s.reactors 0).batch, (s.conns 0).channel.readCallback)) =
        some (.loop, [0], false) ∧
      (execute (Server.step oneReactor) Anything oneReactor.server
        (earlyEvent ++ [.sub 0 .next])).isSome = true := by
    decide
  obtain ⟨before, ran, same⟩ := Option.map_eq_some_iff.mp facts.1
  simp only [Prod.mk.injEq] at same
  obtain ⟨after, started⟩ := Option.isSome_iff_exists.mp facts.2
  -- The event is handled in the one state that the labels before it lead to.
  obtain ⟨t, run, allowed, _⟩ := (claimed _ _ _ (.of_execute started)).last
  have reached : execute (Server.step oneReactor) Anything oneReactor.server earlyEvent = some t :=
    (run.weaken fun _ _ _ => trivial).execute_eq
  obtain rfl := Option.some.inj (ran.symm.trans reached)
  have wired := (allowed same.1 0 (by rw [same.2.1]; rfl)).1.1
  rw [same.2.2] at wired
  cases wired

end SimpleSrv.Nebula
