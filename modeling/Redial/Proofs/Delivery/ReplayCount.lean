import Redial.Proofs.Delivery.Outbound
import Redial.Proofs.Progress.Completion

/-!
# What a failed replay reports

A read whose retry fails in the replay of the hello ends with a fault that tells how many bytes had
been replayed. The two pieces of the hello are counted as a whole: nothing is told if a write of the
first piece has failed, and the length of the first piece if a write of the second one has. What the
new connection has taken of the piece that failed is left out (`replay_count_exact_iff`).
-/

namespace Redial

/-! ## Faults that connections report -/

/-- The fault that a read of a connection met, or a request to shut a half of it. -/
def Event.met? : Event → Option Fault
  | readFailed _ _ f => some f
  | shut _ _ refused => refused
  | _ => none

/-- A read of a connection has met a fault, or a request to shut a half of it has. -/
def Journal.Met (j : Journal) (f : Fault) : Prop := ∃ e ∈ j, e.event.met? = some f

instance (j : Journal) (f : Fault) : Decidable (j.Met f) :=
  inferInstanceAs (Decidable (∃ e ∈ j, e.event.met? = some f))

/-- The fault that a read ended with. -/
def Outcome.readFault? : Outcome → Option Fault
  | read (.error f) => some f
  | _ => none

theorem Outcome.eq_read_of_readFault? {o : Outcome} {f : Fault} (h : o.readFault? = some f) :
    o = .read (.error f) := by
  unfold readFault? at h
  split at h
  · cases h
    rfl
  · cases h

namespace World

variable {w w' : World} {i : LinkId} {f : Fault}

theorem met_of_enters {P : Event → Prop} (h : w.Enters P w') (hmet : w.journal.Met f) :
    w'.journal.Met f := by
  obtain ⟨es, hj, -⟩ := h
  obtain ⟨e, he, hf⟩ := hmet
  rw [hj]
  exact ⟨e, List.mem_append_right es he, hf⟩

theorem met_read {task : TaskId} {len : Nat} (h : w.read i task len = some (w', .error f)) :
    w'.journal.Met f := by
  obtain ⟨l, l', -, -, rfl⟩ := read_eq_some h
  exact ⟨_, List.mem_cons_self, rfl⟩

theorem met_shut {half : Half} (h : w.shut i half = some (w', some f)) : w'.journal.Met f := by
  obtain ⟨l, l', -, -, rfl⟩ := shut_eq_some h
  exact ⟨_, List.mem_cons_self, rfl⟩

end World

namespace Stream

/-- What is known at the places of a read from which it can fail. A fault that it brings has been
met on a connection. What is left of a piece of the hello is the end of the piece, and the place of
the cut is remembered. -/
def Call.Accounts (s : State) : Call → Prop
  | queued (.judge _ _ (.error f)) => s.journal.Met f
  | replaying _ cut piece rest => s.memory.split = some cut.first.length ∧ rest <:+ piece.bytes cut
  | _ => True

/-- How a read ends with the fault `f`. -/
inductive Effect.FailsRead (k : TaskId) (s s₁ : State) (f : Fault) : Call → Prop where
  /-- A connection has reported it. -/
  | met {c} (hmet : s₁.journal.Met f) : FailsRead k s s₁ f c
  /-- The dial of the retry has failed. -/
  | redial {len dial destination cause} (hf : f = .retry (.redial destination) cause) :
      FailsRead k s s₁ f (.redialling len dial)
  /-- A write of the replay has failed. -/
  | replay {len cut piece rest w r cause} (hrest : rest ≠ [])
      (hw : s.world.write s.memory.current (.replay k) rest = some (w, r))
      (hr : ReplayFails r cause) (hs : s₁ = ((s.withWorld w).note (.replayFailed cause)).settle)
      (hf : f = .retry (.replay (piece.before cut)) cause) :
      FailsRead k s s₁ f (.replaying len cut piece rest)

section Steps

variable {k j : TaskId} {s s₁ : State} {c d : Call} {p : Progress Call Outcome} {f : Fault}

/-! ## What is known of a read that can fail -/

theorem Call.Accounts.congr {P : Event → Prop} (h : c.Accounts s)
    (hsplit : s₁.memory.split = s.memory.split) (hw : s.world.Enters P s₁.world) :
    c.Accounts s₁ := by
  unfold Call.Accounts at h ⊢
  split at h
  · exact World.met_of_enters hw h
  · rw [hsplit]
    exact h
  · trivial

theorem Call.Accounts.elsewhere (hrenews : c.renews = false) (hretrieves : c.retrieves = false) :
    c.Accounts s := by
  unfold Call.Accounts
  split
  · cases hretrieves
  · cases hrenews
  · trivial

theorem WriteHalfNext.accounts {len : Nat} (h : WriteHalfNext s len c) : c.Accounts s₁ := by
  cases h <;> trivial

theorem Retrieval.accounts (h : Retrieval k s c s₁ d) : d.Accounts s₁ := by
  cases h with
  | @brings link len w r hr =>
    cases r with
    | ok bytes => trivial
    | error f => exact World.met_read hr
  | _ => trivial

theorem Renewal.accounts (h : Renewal k s c s₁ d) (ha : c.Accounts s) : d.Accounts s₁ := by
  cases h with
  | redials => exact ⟨rfl, List.suffix_refl _⟩
  | nextPiece => exact ⟨ha.1, List.suffix_refl _⟩
  | replays =>
    obtain ⟨hsplit, hrest⟩ := ha
    exact ⟨hsplit, (List.drop_suffix _ _).trans hrest⟩
  | interrupted => exact ha
  | toWriteHalf _ hn | reshutsRead _ hn => exact hn.accounts
  | _ => trivial

theorem Effect.accounts (h : Effect k s c s₁ p) (hp : p = .goesOn d) (ha : c.Accounts s) :
    d.Accounts s₁ := by
  cases hrenews : d.renews with
  | true => exact (h.renewal hp hrenews).accounts ha
  | false =>
    cases hretrieves : d.retrieves with
    | true => exact (h.retrieval hp hretrieves).accounts
    | false => exact .elsewhere hrenews hretrieves

/-- A step of one call leaves what is known of another one. -/
theorem Effect.accounts_of_ne (h : Effect k s c s₁ p) (hs : s.Sound) (hc : c.Phase s)
    (hk : c.holds = true → s.memory.lock.holder? = some k) (hdp : d.Phase s)
    (hd : d.holds = true → s.memory.lock.holder? = some j) (hjk : j ≠ k) (ha : d.Accounts s) :
    d.Accounts s₁ := by
  have hentered := h.enters hs hc
  cases hrenews : d.renews with
  | true =>
    have hopen := (hdp.of_renews hrenews).2
    have hholder := hd (Call.holds_of_renews hrenews)
    have hsplit : s₁.memory.split = s.memory.split := by
      rcases h.aside hc hopen hk hholder hjk with rfl | ⟨half, rfl⟩ | ⟨_, _, w, _, -, -, rfl⟩
      · rfl
      · exact (State.SameGuarded.askShut s half).split
      · rfl
    exact ha.congr hsplit hentered
  | false =>
    unfold Call.Accounts at ha ⊢
    split at ha
    · exact World.met_of_enters hentered ha
    · cases hrenews
    · trivial

/-! ## How a read fails -/

theorem Effect.failsRead (h : Effect k s c s₁ (.done (.read (.error f)))) (hs : s.Sound)
    (hc : c.Phase s) (ha : c.Accounts s) : FailsRead k s s₁ f c := by
  have hentered := h.enters hs hc
  have hwrites : ∀ {buf r goal}, (afterWrite s k buf r goal).2 ≠ .done (.read (.error f)) := by
    intro buf r goal hdone
    rcases afterWrite_done hdone with ⟨-, ho⟩ | ⟨_, ho⟩ | ⟨_, _, ho⟩ <;> cases ho
  generalize hp : Progress.done (κ := Call) (Outcome.read (.error f)) = p at h
  cases h with
  | passes h =>
    cases h with
    | bringLate =>
      cases hp
      exact .met ha
    | beginWrite | beginWriteAll | pullPiece =>
      obtain ⟨c', hc'⟩ := offer_goesOn _ _ _ _
      rw [hc'] at hp
      cases hp
    | replayed =>
      obtain ⟨c', hc'⟩ := afterReplay_goesOn _ _
      rw [hc'] at hp
      cases hp
    | _ => cases hp
  | @reads link len w r hr =>
    rcases afterReading_cases s k link len r with ⟨-, hgo⟩ | ⟨-, -, hgo⟩ | ⟨-, -, hgo⟩
    · rw [hgo] at hp
      cases hp
    · rw [hgo] at hp
      cases hp
      exact .met (World.met_read hr)
    · rw [hgo] at hp
      cases hp
  | settlesOnFault =>
    cases hp
    exact .met (World.met_of_enters hentered ha)
  | redialFails =>
    cases hp
    exact .redial rfl
  | replayFails hrest hw hr =>
    cases hp
    exact .replay hrest hw hr rfl rfl
  | reshutFails hw =>
    cases hp
    have hmet := World.met_shut hw
    exact .met (World.met_of_enters (World.Enters.note (P := fun _ => True) trivial) hmet)
  | answers hr =>
    cases hp
    have hmet := World.met_read hr
    exact .met (World.met_of_enters (World.Enters.note (P := fun _ => True) trivial) hmet)
  | sends | sendsTo => exact absurd hp.symm hwrites
  | @bare link call w p' hw =>
    cases p' with
    | goesOn call' => cases hp
    | done o =>
      cases hp
      rcases (BareCall.effect_of_step hw).done hc.2 with ⟨len, r, hr, ho⟩ | ⟨_, _, ho⟩
      · cases ho
        exact .met (World.met_read hr)
      · cases ho
  | _ => cases hp

/-! ## What has been accepted when a write of the replay fails -/

/-- While something is left of a piece, the second connection has accepted the beginning of the
hello: less than the first piece, or the first piece and less than the second one. -/
theorem Call.Replays.beginning {len : Nat} {cut : Cut} {piece : Piece} {rest : Bytes}
    (h : Call.Replays s (.replaying len cut piece rest)) (hrest : rest ≠ [])
    (hend : rest <:+ piece.bytes cut) :
    ∃ sent, sent < s.memory.hello.bytes.length ∧
      s.journal.bytesAccepted secondLink = s.memory.hello.bytes.take sent ∧
      piece.before cut = if sent < cut.first.length then 0 else cut.first.length := by
  have hpos : 0 < rest.length := List.length_pos_iff.mpr hrest
  cases piece with
  | first =>
    obtain ⟨hcut, hsent⟩ := h
    have hlen := congrArg List.length hsent
    rw [List.length_append] at hlen
    have hhello : s.memory.hello.bytes =
        s.journal.bytesAccepted secondLink ++ (rest ++ cut.second) := by
      rw [← hcut, ← hsent, List.append_assoc]
    refine ⟨(s.journal.bytesAccepted secondLink).length, ?_, ?_, ?_⟩
    · rw [hhello, List.length_append, List.length_append]
      omega
    · rw [hhello, List.take_left]
    · rw [if_pos (by omega)]
      rfl
  | second =>
    obtain ⟨hcut, hsent⟩ := h
    have hlen := congrArg List.length (hsent.trans hcut.symm)
    have hle : rest.length ≤ cut.second.length := hend.length_le
    rw [List.length_append, List.length_append] at hlen
    refine ⟨(s.journal.bytesAccepted secondLink).length, ?_, ?_, ?_⟩
    · rw [← hsent, List.length_append]
      omega
    · rw [← hsent, List.take_left]
    · rw [if_neg (by omega)]
      rfl

end Steps

end Stream

namespace StreamSession

open Redial.Stream

variable {rule : Rule} {setup : Setup} {m m' : Moment} {k : TaskId} {f : Fault}

/-- What is known of reads that can fail stays known. -/
theorem inductive_accounts :
    Inductive rule setup (fun _ => True) fun _ s c => c.Accounts s where
  opened _ _ := trivial
  started _ _ _ := trivial
  changes _ _ _ :=
    ⟨trivial, fun _ _ ha => ha.congr rfl (enters_change (P := fun _ => True) _ _)⟩
  locks _ _ _ := ⟨trivial, fun _ _ ha => ha.congr rfl (World.Enters.refl (P := fun _ => True) _)⟩
  steps _ _ _ _ _ _ _ _ ha he := ⟨trivial, fun _ hp => he.accounts hp ha⟩
  others _ _ _ _ _ _ _ hm hk hj hjk _ _ he ha :=
    he.accounts_of_ne hm.sound (hm.phase hk) (hm.holder hk) (hm.phase hj) (hm.holder hj) hjk ha

/-- What the second connection has accepted when a read fails in the replay: the beginning of the
hello, `sent` bytes, while the fault tells how many of them belong to pieces that were replayed as a
whole. -/
structure Moment.ReplayBreaks (m' : Moment) (n place sent : Nat) : Prop where
  account : ∃ stats, m'.state.stats? = some stats ∧ stats.split = some place ∧
    stats.helloLen = m'.journal.acknowledged.length
  accepted : m'.journal.bytesAccepted secondLink = m'.journal.acknowledged.take sent
  unfinished : sent < m'.journal.acknowledged.length
  counted : n = if sent < place then 0 else place

theorem Moment.EndsRead.replayBreaks (hr : m.EndsRead k (.error f) m')
    (h : Reachable rule setup m) {n : Nat} {cause : Fault}
    (hf : f.retryFault? = some ⟨.replay n, cause⟩) (hown : ¬m'.journal.Met f) :
    ∃ place sent, m'.ReplayBreaks n place sent := by
  obtain ⟨c, s₁, l, hk, he, rfl⟩ := hr.toMoves.ends h hr.ended
  have hc : c.Phase m.state := h.phase hk
  have ha : c.Accounts m.state := (inductive_accounts.holds h).2 k c hk
  obtain ⟨hdelivered, hreplays⟩ := inductive_replays.holds h
  have hstate : Moment.state ⟨m.actions, m.machine.advance k (s₁.withLock l)
      (.done (.read (.error f)))⟩ = s₁.withLock l := Moment.state_advance _ _ _ _ _
  unfold Moment.journal at hown
  rw [Machine.env_advance] at hown
  cases he.failsRead h.sound hc ha with
  | met hmet => exact absurd hmet hown
  | redial hredial =>
    rw [hredial] at hf
    cases hf
  | @replay len cut piece rest w r cause' hrest hw hfails hs₁ hreplay =>
    rw [hreplay] at hf
    cases hf
    obtain ⟨hsplit, hend⟩ := ha
    have hcur : m.state.memory.current = secondLink := hc.1
    obtain ⟨sent, hlt, hsent, hbefore⟩ := (hreplays k _ hk).beginning hrest hend
    -- The write that failed has brought the connection nothing.
    have hsame : m.state.world.SameAccepted s₁.world := by
      have hwrite : m.state.world.SameAccepted w := by
        cases hfails with
        | stuck => exact .writeStuck hw
        | fault => exact .writeFailed hw
      rw [hs₁]
      exact hwrite.trans ((World.SameAccepted.note _ _).trans (.note _ _))
    have hhello : m.state.memory.hello.bytes = s₁.journal.acknowledged :=
      (hdelivered.hello hc.2).trans hsame.acknowledged.symm
    refine ⟨cut.first.length, sent, ?_, ?_, ?_, hbefore⟩
    · rw [hstate]
      refine ⟨m.state.statsNow, ?_, hsplit, ?_⟩
      · rw [hs₁]
        exact State.stats?_settle hc.2
      · show m.state.memory.hello.length = s₁.journal.acknowledged.length
        rw [← hhello]
        rfl
    · unfold Moment.journal
      rw [Machine.env_advance]
      show s₁.journal.bytesAccepted secondLink = s₁.journal.acknowledged.take sent
      rw [← hhello, ← hsent]
      exact hsame.bytesAccepted secondLink
    · unfold Moment.journal
      rw [Machine.env_advance]
      show sent < s₁.journal.acknowledged.length
      rw [← hhello]
      exact hlt

/-- A read that fails in the replay of the hello tells how many bytes had been replayed, each of the
two pieces counted as a whole: never more than the second connection has accepted, and just as many
if it has accepted nothing of the piece that failed. -/
theorem replay_count_exact_iff {setup : Setup} {m m' : Moment} {k : TaskId} {f cause : Fault}
    {n : Nat} (h : Reachable anything setup m) (hr : m.EndsRead k (.error f) m')
    (hf : f.retryFault? = some ⟨.replay n, cause⟩) (hown : ¬m'.journal.Met f) :
    ∃ place sent, m'.ReplayBreaks n place sent ∧ n ≤ sent ∧
      (m'.journal.bytesAccepted secondLink = m'.journal.acknowledged.take n ↔
        sent = 0 ∨ sent = place) := by
  obtain ⟨place, sent, hbreaks⟩ := hr.replayBreaks h hf hown
  have hcounted := hbreaks.counted
  have hunfinished := hbreaks.unfinished
  have hle : n ≤ sent := by
    split at hcounted <;> omega
  refine ⟨place, sent, hbreaks, hle, ?_⟩
  rw [hbreaks.accepted, List.take_eq_take_iff]
  split at hcounted <;> omega

/-- A session whose first connection is reset by its first read. The second one takes its first
write as `first` says, and its second write breaks once a gate is opened. The hello is cut at 2. -/
def brokenWriteSession (first : Acceptance) : Setup :=
  .localhost 2
    [dialledAtOnce { LinkScript.silent with
      reads := [⟨none, .fault (.ofKind .connectionReset)⟩] },
      dialledAtOnce { LinkScript.silent with
        writes := [⟨none, first⟩, ⟨some "break", .fault (.ofKind .brokenPipe)⟩] }]

/-- A read ends with `f` in the step that a gate has held up. -/
theorem endsRead_of_openGate {actions : List Session.Action} {m₀ : Moment} {gate : Gate}
    (hplayed : setup.played actions = some m₀)
    (hmove : (m₀.act (.openGate gate)).move? k = some m')
    (hends : ∃ t ∈ m'.machine.finished, t.1 = k ∧ t.2.readFault? = some f) :
    Reachable anything setup (m₀.act (.openGate gate)) ∧
      (m₀.act (.openGate gate)).EndsRead k (.error f) m' := by
  obtain ⟨⟨j, o⟩, ho, rfl, hfault⟩ := hends
  cases Outcome.eq_read_of_readFault? hfault
  have hreach := reachable_of_played (Setup.keeps_anything _ _) hplayed
  exact ⟨hreach.leads (.single (.act _ trivial)), Moment.moves_of_move? hmove, ho⟩

/-- The second piece fails at once, and the count is that of the first one. -/
theorem replay_count_exact_between_pieces : ∃ m m' cause,
    Reachable anything (brokenWriteSession .usual) m ∧
    m.EndsRead 1 (.error (.retry (.replay 2) cause)) m' ∧
    m'.journal.acknowledged = [1, 2, 3, 4] ∧ m'.journal.bytesAccepted secondLink = [1, 2] ∧
    ∃ place sent, m'.ReplayBreaks 2 place sent := by
  have hm : ∃ m₀, (brokenWriteSession .usual).played
      [.call (.write [1, 2, 3, 4]), .call (.read 4)] = some m₀ ∧
      ∃ m', (m₀.act (.openGate "break")).move? 1 = some m' ∧
        (∃ t ∈ m'.machine.finished, t.1 = 1 ∧
          t.2.readFault? = some (.retry (.replay 2) (.ofKind .brokenPipe))) ∧
        ¬m'.journal.Met (.retry (.replay 2) (.ofKind .brokenPipe)) ∧
        m'.journal.acknowledged = [1, 2, 3, 4] ∧
        m'.journal.bytesAccepted secondLink = [1, 2] := by
    refine ⟨_, rfl, _, rfl, ?_, ?_, ?_, ?_⟩
    · decide +kernel
    · decide +kernel
    · decide +kernel
    · decide +kernel
  obtain ⟨m₀, hplayed, m', hmove, hends, hown, hhello, hsent⟩ := hm
  obtain ⟨h, hr⟩ := endsRead_of_openGate hplayed hmove hends
  obtain ⟨place, sent, hbreaks, -⟩ := replay_count_exact_iff h hr rfl hown
  exact ⟨_, m', _, h, hr, hhello, hsent, place, sent, hbreaks⟩

/-- The first piece fails after one of its bytes has been accepted, and the count is 0. -/
theorem replay_count_short_within_piece : ∃ m m' cause,
    Reachable anything (brokenWriteSession (.atMost 1)) m ∧
    m.EndsRead 1 (.error (.retry (.replay 0) cause)) m' ∧
    m'.journal.acknowledged = [1, 2, 3, 4] ∧ m'.journal.bytesAccepted secondLink = [1] ∧
    m'.journal.bytesAccepted secondLink ≠ m'.journal.acknowledged.take 0 := by
  have hm : ∃ m₀, (brokenWriteSession (.atMost 1)).played
      [.call (.write [1, 2, 3, 4]), .call (.read 4)] = some m₀ ∧
      ∃ m', (m₀.act (.openGate "break")).move? 1 = some m' ∧
        (∃ t ∈ m'.machine.finished, t.1 = 1 ∧
          t.2.readFault? = some (.retry (.replay 0) (.ofKind .brokenPipe))) ∧
        m'.journal.acknowledged = [1, 2, 3, 4] ∧
        m'.journal.bytesAccepted secondLink = [1] := by
    refine ⟨_, rfl, _, rfl, ?_, ?_, ?_⟩
    · decide +kernel
    · decide +kernel
    · decide +kernel
  obtain ⟨m₀, hplayed, m', hmove, hends, hhello, hsent⟩ := hm
  obtain ⟨h, hr⟩ := endsRead_of_openGate hplayed hmove hends
  refine ⟨_, m', _, h, hr, hhello, hsent, ?_⟩
  rw [hsent, List.take_zero]
  exact List.cons_ne_nil _ _

end StreamSession

end Redial
