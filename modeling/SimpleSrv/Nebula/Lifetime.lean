import SimpleSrv.Nebula.SetUp

/-! What becomes of a channel whose handler closes its connection. -/

namespace SimpleSrv.Nebula

/-- No handler closes a connection that stands in the table. -/
def Sparing (s : Server) : Label → Prop
  | .sub i .close => ∀ ch, (s.reactors i).pc = .handler ch → s.connections (s.fd ch) = none
  | _ => True

namespace Server

/-- Every use of a channel has found it live. -/
def UsesLive (s : Server) : Prop := ∀ use ∈ s.uses, use.live = true

/-- No sub-reactor is in `HandleEvent`. -/
def AtRest (s : Server) : Prop := ∀ i, (s.reactors i).pc = .poll ∨ (s.reactors i).pc = .loop

/-- The call of `HandleEvent` at this place is bound to use a channel that is gone by then. -/
def Doomed (s : Server) : LoopPc → Prop
  | .erase _ _ | .destroy _ _ | .shut _ _ => True
  | .closed ch | .again ch => ch ∉ s.live
  | .poll | .loop | .check _ | .handler _ => False

/-- No channel has been used after its end, and none is about to be. -/
structure Sound (s : Server) : Prop where
  uses : s.UsesLive
  places : ∀ i, ¬ s.Doomed (s.reactors i).pc

end Server

namespace ServerInv

variable {setting : Setting} {s t : Server} {i : Nat}

/-- A channel that is gone stays gone. -/
theorem doomed_kept (inv : ServerInv s) (doomed : s.Doomed (s.reactors i).pc)
    (live : ∀ ch < s.created, ch ∈ t.live → ch ∈ s.live) : t.Doomed (s.reactors i).pc := by
  -- By the place: at three of them nothing is asked, and at two the channel stays gone.
  have place := inv.places i
  revert doomed place
  cases (s.reactors i).pc with
  | erase | destroy | shut => exact fun _ _ => trivial
  | closed ch | again ch => exact fun gone place member => gone (live ch place.1 member)
  | poll | loop | check | handler => exact fun absurd _ => absurd

/-- The main reactor ends and uses nothing, and brings nothing back. -/
theorem main_other {op : MainOp} (stepped : s.mainStep setting op = some t) :
    t.uses = s.uses ∧ (∀ ch ∈ s.live, ch ∈ t.live) ∧
      ∀ ch < s.created, ch ∈ t.live → ch ∈ s.live := by
  -- Only a construction adds a connection, and its number is not among the older ones.
  cases op with
  | construct fd =>
    have changes := Server.construct_changes (Option.ite_none_right_eq_some.mp stepped).2
    refine ⟨changes.uses, fun c member => (changes.live c).mpr (.inl member), ?_⟩
    intro c older member
    exact ((changes.live c).mp member).resolve_right (Nat.ne_of_lt older)
  | setDeleteConnectionCallback | setOnConnectCallback | record =>
    simp only [Server.mainStep] at stepped
    split at stepped
    · obtain rfl := Option.some.inj stepped
      exact ⟨rfl, fun _ member => member, fun _ _ member => member⟩
    · cases stepped

/-- The main reactor moves no sub-reactor. -/
theorem main_places {op : MainOp} (stepped : s.mainStep setting op = some t) (j : Nat) :
    (t.reactors j).pc = (s.reactors j).pc := by
  rcases main_building stepped with ⟨same, _⟩ | ⟨_, same⟩
  · rw [same]
  · exact same j

/-- A sub-reactor that is bound to a dead use goes on to it, or has just made it. -/
theorem doomed_move (inv : ServerInv s) {op : LoopOp} (move : LoopMove s i op t)
    (doomed : s.Doomed (s.reactors i).pc) :
    t.Doomed (t.reactors i).pc ∨ ∃ use ∈ t.uses, use.live = false := by
  -- Each place in a deletion leads to the next one, up to the second condition itself.
  have place := inv.places i
  cases move with
  | poll _ at_ | rest at_ | start _ _ at_ | call _ at_ | skip _ at_ | found _ _ at_ | missed _ at_
  | ret _ at_ =>
    rw [at_] at doomed
    cases doomed
  | erase =>
    refine .inl ?_
    rw [Server.goOn_pc]
    trivial
  | destroy =>
    refine .inl ?_
    rw [Server.destroyed, Server.goOn_pc]
    trivial
  | nothing ch at_ =>
    rw [at_] at place
    cases place.1
  | shut ch conn at_ =>
    rw [at_] at place
    refine .inl ?_
    rw [Server.goOn_pc]
    exact place.2.1
  | back ch at_ =>
    rw [at_] at doomed
    refine .inl ?_
    rw [Server.goOn_pc]
    exact doomed
  | again stale ch at_ =>
    rw [at_] at doomed
    have gone : ch ∉ s.live := doomed
    exact .inr ⟨⟨ch, ch ∈ s.live⟩, List.mem_append_right _ List.mem_cons_self, by simpa using gone⟩

/-- What is sound behind a step was sound before it, and the step has deleted nothing. -/
theorem sound_back (inv : ServerInv s) {label : Label} (stepped : s.step setting label = some t)
    (sound : t.Sound) : s.Sound ∧ Sparing s label := by
  -- The main reactor deletes nothing, and a sub-reactor goes on from where it was.
  cases label with
  | main op =>
    obtain ⟨uses, _, older⟩ := main_other stepped
    refine ⟨⟨fun use member => sound.uses use (uses ▸ member), fun j doomed => ?_⟩, trivial⟩
    have kept := inv.doomed_kept doomed older
    rw [← main_places stepped j] at kept
    exact sound.places j kept
  | sub i op =>
    have move := LoopMove.of_step (Option.ite_none_right_eq_some.mp stepped).2
    refine ⟨⟨fun use member => sound.uses use (move.uses use member), fun j doomed => ?_⟩, ?_⟩
    · -- The sub-reactor that moved is bound as before, the others are where they were.
      by_cases here : j = i
      · subst here
        rcases inv.doomed_move move doomed with next | ⟨use, member, dead⟩
        · exact sound.places j next
        · rw [sound.uses use member] at dead
          cases dead
      · have kept := inv.doomed_kept doomed fun ch _ => move.live ch
        rw [← move.other here] at kept
        exact sound.places j kept
    · cases move with
      | found ch conn at_ =>
        have next := sound.places i
        rw [Server.goOn_pc] at next
        exact absurd trivial next
      | missed ch at_ entry =>
        intro c at'
        obtain rfl := LoopPc.handler.inj (at_.symm.trans at')
        exact entry
      | poll | rest | start | call | skip | erase | nothing | destroy | shut | ret | back | again =>
        trivial

/-- A place where no dead use is bound to follow stays one while nothing is deleted. -/
theorem sound_place {pc : LoopPc} (sound : ¬ s.Doomed pc) (live : ∀ ch ∈ s.live, ch ∈ t.live) :
    ¬ t.Doomed pc := by
  -- Only two places are doomed for want of a channel.
  revert sound
  cases pc with
  | erase | destroy | shut => exact fun absurd => absurd
  | closed ch | again ch => exact fun present gone => present fun member => gone (live ch member)
  | poll | loop | check | handler => exact fun _ => id

/-- Where a sub-reactor deletes nothing, it uses live channels only, and goes on in their midst. -/
theorem sparing_move (inv : ServerInv s) (sound : s.Sound) {op : LoopOp} (move : LoopMove s i op t)
    (spares : Sparing s (.sub i op)) :
    t.live = s.live ∧ t.UsesLive ∧ ¬ t.Doomed (t.reactors i).pc := by
  have place := inv.places i
  have here := sound.places i
  -- One more use is fine if the channel is live.
  have used : ∀ ch ∈ s.live, (s.use ch).UsesLive := by
    intro ch live use member
    rcases List.mem_append.mp member with member | member
    · exact sound.uses use member
    · rw [List.mem_singleton.mp member]
      exact decide_eq_true live
  -- The places within a deletion are doomed, and a look-up that finds is not spared.
  cases move with
  | poll report at_ reports =>
    obtain ⟨_, live, _, uses⟩ := LoopMove.poll_other s (s.reactors i).epoll report
    refine ⟨live, fun use member => ?_, ?_⟩
    · change use ∈ (s.poll (s.reactors i).epoll report).1.uses at member
      rw [uses] at member
      rcases List.mem_append.mp member with member | member
      · exact sound.uses use member
      · obtain ⟨ch, listed, rfl⟩ := List.mem_map.mp member
        exact decide_eq_true ((inv.reported reports).2 ch listed).1
    · simp [Server.setReactor, Server.Doomed]
  | rest at_ =>
    rw [Server.goOn_pc]
    exact ⟨rfl, sound.uses, id⟩
  | start ch rest at_ filled =>
    have live := ((inv.batches i).2 ch (by rw [filled]; exact List.mem_cons_self)).1
    refine ⟨rfl, used ch live, ?_⟩
    simp [Server.setReactor, Server.Doomed]
  | call ch at_ =>
    rw [at_] at place
    rw [Server.goOn_pc]
    exact ⟨rfl, used ch place.1, id⟩
  | skip ch at_ =>
    rw [at_] at place
    rw [Server.goOn_pc]
    exact ⟨rfl, used ch place.1, fun gone => gone place.1⟩
  | found ch conn at_ _ entry =>
    rw [spares ch at_] at entry
    cases entry
  | missed => exact ⟨rfl, sound.uses, here⟩
  | erase _ _ at_ | nothing _ at_ | destroy _ _ _ _ at_ | shut _ _ at_ =>
    rw [at_] at here
    exact absurd trivial here
  | ret ch at_ =>
    rw [at_] at place
    rw [Server.goOn_pc]
    exact ⟨rfl, sound.uses, fun gone => gone place.1⟩
  | back ch at_ =>
    rw [at_] at here
    rw [Server.goOn_pc]
    exact ⟨rfl, sound.uses, here⟩
  | again stale ch at_ =>
    rw [at_] at here
    rw [Server.goOn_pc]
    exact ⟨rfl, used ch (not_not.mp here), id⟩

/-- A step that deletes nothing keeps what is sound. -/
theorem sound_step (inv : ServerInv s) (sound : s.Sound) {label : Label}
    (spares : Sparing s label) (stepped : s.step setting label = some t) : t.Sound := by
  -- The reactor that moves is looked at by itself, and the others stay where they are.
  cases label with
  | main op =>
    obtain ⟨uses, live, _⟩ := main_other stepped
    refine ⟨fun use member => sound.uses use (uses ▸ member), fun j => ?_⟩
    rw [main_places stepped j]
    exact sound_place (sound.places j) live
  | sub i op =>
    have move := LoopMove.of_step (Option.ite_none_right_eq_some.mp stepped).2
    obtain ⟨live, uses, place⟩ := inv.sparing_move sound move spares
    refine ⟨uses, fun j => ?_⟩
    by_cases here : j = i
    · subst here
      exact place
    · rw [move.other here]
      exact sound_place (sound.places j) fun ch member => live ▸ member

end ServerInv

/-- Nothing has been used after its end, nor is bound to be, exactly when nothing is deleted. -/
theorem Setting.sound_iff {setting : Setting} {labels : List Label} {s : Server}
    (run : setting.Runs Anything labels s) : s.Sound ↔ setting.Runs Sparing labels s := by
  constructor
  · -- From the end of the run back, each step has spared the connection of its handler.
    intro sound
    induction run with
    | start => exact .start _
    | next run _ stepped ih =>
      obtain ⟨before, spares⟩ := (setting.serverInv run).sound_back stepped sound
      exact .next (ih before) spares stepped
  · intro sparing
    have initial : setting.server.Sound := ⟨fun _ absent => (nomatch absent), fun _ => id⟩
    induction sparing with
    | start => exact initial
    | next sparing spares stepped ih =>
      have inv := setting.serverInv sparing
      exact inv.sound_step (ih (sparing.weaken fun _ _ _ => trivial)) spares stepped

/--
As long as no handler closes a recorded connection, no channel is used after its end, at any moment
of a run with any connections, reports and orders. Of the runs that end where no event is being
handled, these are the only ones.
-/
theorem uses_live_iff (setting : Setting) (labels : List Label) (s : Server) :
    (setting.Runs Sparing labels s → s.UsesLive) ∧
      (setting.Runs Anything labels s ∧ s.AtRest ∧ s.UsesLive ↔
        setting.Runs Sparing labels s ∧ s.AtRest) := by
  have enough : setting.Runs Sparing labels s → setting.Runs Anything labels s ∧ s.UsesLive := by
    intro sparing
    have run : setting.Runs Anything labels s := sparing.weaken fun _ _ _ => trivial
    exact ⟨run, ((Setting.sound_iff run).mpr sparing).uses⟩
  refine ⟨fun sparing => (enough sparing).2, ?_, ?_⟩
  · -- At rest no place is doomed, so live uses are all that soundness asks for.
    rintro ⟨run, rest, live⟩
    refine ⟨(Setting.sound_iff run).mp ⟨live, fun i doomed => ?_⟩, rest⟩
    rcases rest i with at_ | at_
    · rw [at_] at doomed
      exact doomed
    · rw [at_] at doomed
      exact doomed
  · rintro ⟨sparing, rest⟩
    obtain ⟨run, live⟩ := enough sparing
    exact ⟨run, rest, live⟩

/-- A client that disconnects, and a handler that closes its connection. -/
def hangUp : List Label :=
  [.main (.construct 5), .main .setDeleteConnectionCallback, .main .setOnConnectCallback,
    .main .record, .sub 0 (.poll [(5, epollIn)]), .sub 0 .next, .sub 0 .check, .sub 0 .close,
    .sub 0 .erase, .sub 0 .destroy, .sub 0 .shut, .sub 0 .ret, .sub 0 (.again 0)]

/-- The second condition of `HandleEvent` reads the channel that the handler has destroyed. -/
theorem hang_up_reads_freed :
    ¬ ∀ (setting : Setting) (labels : List Label) (s : Server),
      setting.Runs Anything labels s → s.UsesLive := by
  -- The run ends with the use of a channel that is gone.
  intro claimed
  have facts : (execute (Server.step oneReactor) Anything oneReactor.server hangUp).map
      (fun s => s.uses.getLast?) = some (some ⟨0, false⟩) := by
    decide
  obtain ⟨s, ran, last⟩ := Option.map_eq_some_iff.mp facts
  have dead := claimed oneReactor hangUp s (.of_execute ran) ⟨0, false⟩ (List.mem_of_getLast? last)
  cases dead

end SimpleSrv.Nebula
