import Redial.Proofs.Delivery.Pieces
import Redial.Proofs.Stream.Effort
import Redial.Proofs.Stream.PlainReplay

/-!
# Sessions that differ in the cut

Two sessions that differ in nothing but the split strategy look the same to someone who does not
know how the hello is cut. `Alike` is the relation between the machines of two such sessions. A step
of a call keeps it, unless the call goes over to the second connection; then the replay goes through
in both sessions before any other call moves, with other writes of the same bytes
(`Alike.step`). From there the relation is kept by the scheduler and by every step of a session.
-/

namespace Redial

/-! ## What strategies are asked -/

/-- Two strategies of one kind that have been asked the same. -/
inductive SplitStrategy.SameQuestions : SplitStrategy → SplitStrategy → Prop where
  | scripted {s s' : OffsetScript} (h : s.asked = s'.asked) :
      SameQuestions (.scripted s) (.scripted s')
  | uniform {range range' : OffsetRange} {stream stream' : KeyStream} :
      SameQuestions (.uniform range stream) (.uniform range' stream')

namespace SplitStrategy.SameQuestions

variable {s s' : SplitStrategy}

theorem questions (h : s.SameQuestions s') : s.questions = s'.questions := by
  cases h with
  | scripted h => exact congrArg List.reverse h
  | uniform => rfl

theorem cut (h : s.SameQuestions s') (hello : Bytes) :
    (s.cut hello).2.SameQuestions (s'.cut hello).2 := by
  unfold SplitStrategy.cut
  split
  · exact h
  · cases h with
    | uniform => exact .uniform
    | @scripted a b h =>
      have hasked : ∀ a : OffsetScript,
          (a.answer hello.length).2.asked = hello.length :: a.asked := by
        intro a
        unfold OffsetScript.answer
        split <;> rfl
      refine .scripted ?_
      show (a.answer hello.length).2.asked = (b.answer hello.length).2.asked
      rw [hasked, hasked, h]

end SplitStrategy.SameQuestions

/-! ## When the question was settled -/

/-- When the question was settled, the latest first. -/
def Journal.settledAt (j : Journal) : List Instant :=
  j.filterMap fun e => if e.event.isSettlement then some e.time else none

theorem Journal.settledAt_seamless (j : Journal) (link : LinkId) :
    (j.seamless link).settledAt = j.settledAt := by
  have hentry : ∀ e : Entered, settledAt (e.seamless link) = settledAt [e] := by
    intro e
    rcases e.seamless_cases link with ⟨now, k, bytes, rfl, hs⟩ | ⟨now, n, rfl, hs⟩ | ⟨-, hs⟩
    · rw [hs]
      refine List.filterMap_eq_nil_iff.mpr fun e he => ?_
      unfold spelled at he
      obtain ⟨b, -, rfl⟩ := List.mem_map.mp (List.mem_reverse.mp he)
      rfl
    · rw [hs]
      cases n <;> rfl
    · rw [hs]
  induction j with
  | nil => rfl
  | cons e j ih =>
    unfold seamless settledAt at ih hentry ⊢
    rw [List.flatMap_cons, List.filterMap_append, ih, hentry]
    exact (List.filterMap_append (l := [e])).symm

namespace StreamSession

open Redial.Stream Session

/-- Two sessions begin alike, apart from the split strategy and its configuration. -/
structure Setup.SameButCut (setup setup' : Setup) : Prop where
  destination : setup.destination = setup'.destination
  baseTimeout : setup.config.baseTimeout = setup'.config.baseTimeout
  rttFactor : setup.config.rttFactor = setup'.config.rttFactor
  chunkLen : setup.config.chunkLen = setup'.config.chunkLen
  clock : setup.clock = setup'.clock
  dials : setup.dials = setup'.dials

/-! ## Machines that differ in the cut -/

/-- What a machine looks like to someone who does not know how the hello is cut. -/
def withoutCut (machine : StreamMachine) : StreamMachine :=
  { machine with env := machine.env.withoutCut }

theorem withoutCut_advance (machine : StreamMachine) (k : TaskId) (s : State)
    (p : Progress Call Outcome) :
    withoutCut (machine.advance k s p) = (withoutCut machine).advance k s.withoutCut p := by
  cases p <;> rfl

/-- What a step of a session does by itself has nothing to do with the cut. -/
theorem withoutCut_act (machine : StreamMachine) (n : Nat) (action : Action) :
    withoutCut (StreamSession.act machine n action) =
      StreamSession.act (withoutCut machine) n action := by
  cases action with
  | feed link more =>
    show Machine.mk _ _ _ = Machine.mk _ _ _
    have hfeed : (machine.env.world.seamless secondLink).feed link more =
        (machine.env.world.feed link more).seamless secondLink :=
      World.feed_seamless machine.env.world link more
    exact congrArg (fun w => Machine.mk (machine.env.withoutCut.withWorld w) machine.tasks
      machine.finished) hfeed.symm
  | cancel task =>
    have hcall : (withoutCut machine).call? task = machine.call? task := rfl
    show withoutCut (machine.cancel Stream.behaviour task) =
      (withoutCut machine).cancel Stream.behaviour task
    unfold Machine.cancel
    rw [hcall]
    cases machine.call? task <;> rfl
  | _ => rfl

theorem rank_withoutCut (machine : StreamMachine) : rank (withoutCut machine) = rank machine := by
  have hdecided : machine.env.withoutCut.isDecided = machine.env.isDecided :=
    State.isDecided_withoutCut _
  have hretry : machine.env.withoutCut.retryWeight = machine.env.retryWeight :=
    State.retryWeight_congr hdecided rfl rfl rfl
  show 8 * machine.env.world.outcomesLeft + machine.env.withoutCut.retryWeight +
    Machine.load (Call.weight machine.env.withoutCut.isDecided) machine.tasks = _
  rw [hretry, hdecided]
  rfl

variable {rule : Rule} {setup setup' : Setup} {actions : List Action} {a b : StreamMachine}
  {k : TaskId}

/-- Machines of two sessions that differ in the cut only, with no call in the middle of a replay. -/
structure Alike (setup setup' : Setup) (actions : List Action) (a b : StreamMachine) : Prop where
  left : Reachable anything setup ⟨actions, a⟩
  right : Reachable anything setup' ⟨actions, b⟩
  same : withoutCut a = withoutCut b
  calm : ∀ t ∈ a.tasks, t.call.isInReplay = false
  asked : setup.strategy.SameQuestions setup'.strategy →
    a.env.memory.strategy.SameQuestions b.env.memory.strategy

namespace Alike

theorem env (h : Alike setup setup' actions a b) : a.env.withoutCut = b.env.withoutCut :=
  (congrArg Machine.env h.same :)

theorem tasks (h : Alike setup setup' actions a b) : a.tasks = b.tasks :=
  (congrArg Machine.tasks h.same :)

theorem finished (h : Alike setup setup' actions a b) : a.finished = b.finished :=
  (congrArg Machine.finished h.same :)

theorem pending (h : Alike setup setup' actions a b) : a.pending = b.pending := by
  unfold Machine.pending
  rw [h.tasks]

theorem rank_eq (h : Alike setup setup' actions a b) : rank a = rank b := by
  rw [← rank_withoutCut a, ← rank_withoutCut b, h.same]

theorem effort_eq (h : Alike setup setup' actions a b) :
    Stream.behaviour.effort a.env (a.tasks.map (·.call)) =
      Stream.behaviour.effort b.env (b.tasks.map (·.call)) := by
  show Stream.behaviour.effort a.env.withoutCut _ = Stream.behaviour.effort b.env.withoutCut _
  rw [h.env, h.tasks]

end Alike

/-! ## Steps of calls -/

/-- Whether a call goes over to the second connection with its next step. -/
def GoesOver (s : State) (c : Call) : Prop :=
  ∃ len dial w link, c = .redialling len dial ∧ s.world.dialled dial = some (w, .ok link)

/-- The strategy is not asked, and no replay begins, unless the call goes over to the second
connection. -/
theorem Reachable.step_of_stays {actions : List Action} (h : Reachable rule setup ⟨actions, a⟩)
    {c : Call} (hk : ⟨k, c⟩ ∈ a.tasks) (hc : c.isInReplay = false) (hstay : ¬GoesOver a.env c)
    {s : State} {p : Progress Call Outcome} (hs : c.step k a.env = some (s, p)) :
    s.memory.strategy = a.env.memory.strategy ∧ ∀ c', p = .goesOn c' → c'.isInReplay = false := by
  have hphase : c.Phase a.env := h.phase hk
  obtain ⟨s₁, l, he, -, rfl⟩ := does_of_step hs
  refine ⟨?_, fun c' hp => ?_⟩
  · rcases he.cuts h.sound hphase with ⟨-, hsame, -⟩ | ⟨hfirst, hsecond, -⟩
    · exact hsame
    · obtain ⟨len, dial, w, link, rfl, hd, -⟩ := he.redials_of_current h.sound hfirst hsecond
      exact absurd ⟨len, dial, w, link, rfl, hd⟩ hstay
  · subst hp
    cases c' with
    | replaying len cut piece rest =>
      cases he.renewal rfl rfl with
      | redials hr => exact absurd ⟨_, _, _, _, rfl, hr⟩ hstay
      | reshutsRead _ hn => cases hn
      | _ => cases hc
    | _ => rfl

/-- A call that goes over to the second connection replays the hello there, in steps of its own. -/
theorem Reachable.goes_over {actions : List Action} (h : Reachable rule setup ⟨actions, a⟩)
    (hp : setup.PlainReplacement) {len : Nat} {dial link : LinkId} {w : World}
    (hk : ⟨k, .redialling len dial⟩ ∈ a.tasks)
    (hd : a.env.world.dialled dial = some (w, .ok link)) :
    ∃ a₁ s c, a.step Stream.behaviour k = some a₁ ∧
      Machine.Goes Stream.behaviour k a₁ (a.advance k s (.goesOn c)) ∧
      s.withoutCut = a.env.withoutCut.wentOver k (w.seamless secondLink) ∧
      s.memory.strategy = (a.env.memory.strategy.cut a.env.memory.hello.bytes).2 ∧
      (afterReplay s len).2 = .goesOn c := by
  obtain ⟨rfl, ht, -⟩ : (Call.redialling len dial).Phase a.env := h.phase hk
  obtain ⟨rfl, l, hl, hplain⟩ := h.plain_dialled hp ht hd
  obtain ⟨s, c, hgoes, hs, hstrategy, hc⟩ := Stream.goes_over (s := a.env) h.numbered.nodup hk hl
    hplain len
  have hstep : (Call.redialling len secondLink).step k a.env =
      some (beginReplay (a.env.withWorld w) len secondLink) := by
    show (a.env.world.dialled secondLink).bind _ = _
    rw [hd]
    rfl
  exact ⟨_, s, c, Machine.step_of_mem h.numbered.nodup hk hstep, hgoes, hs, hstrategy, hc⟩

namespace Alike

theorem dialled_eq (h : Alike setup setup' actions a b) (dial : LinkId) :
    (a.env.world.dialled dial).map (fun t => (t.1.seamless secondLink, t.2)) =
      (b.env.world.dialled dial).map fun t => (t.1.seamless secondLink, t.2) := by
  have hworld : a.env.world.seamless secondLink = b.env.world.seamless secondLink :=
    (congrArg State.world h.env :)
  rw [← World.dialled_seamless, ← World.dialled_seamless, hworld]

theorem goesOver_iff (h : Alike setup setup' actions a b) {c : Call} :
    GoesOver a.env c ↔ GoesOver b.env c := by
  have hok : ∀ {o o' : Option (World × Except Fault LinkId)} {link w},
      o.map (fun t => (t.1.seamless secondLink, t.2)) =
        o'.map (fun t => (t.1.seamless secondLink, t.2)) →
      o = some (w, .ok link) → ∃ w', o' = some (w', .ok link) := by
    rintro o o' link w hmap rfl
    obtain ⟨⟨w', r⟩, ho', ht⟩ := Option.map_eq_some_iff.mp hmap.symm
    cases (Prod.mk.inj ht).2
    exact ⟨w', ho'⟩
  constructor
  · rintro ⟨len, dial, w, link, rfl, hd⟩
    obtain ⟨w', hd'⟩ := hok (h.dialled_eq dial) hd
    exact ⟨len, dial, w', link, rfl, hd'⟩
  · rintro ⟨len, dial, w, link, rfl, hd⟩
    obtain ⟨w', hd'⟩ := hok (h.dialled_eq dial).symm hd
    exact ⟨len, dial, w', link, rfl, hd'⟩

theorem call? (h : Alike setup setup' actions a b) (k : TaskId) : a.call? k = b.call? k := by
  unfold Machine.call?
  rw [h.tasks]

/-- What a call does next that does not go over to the second connection is the same in both
sessions. -/
theorem step_of_stays (h : Alike setup setup' actions a b) {c : Call} (hk : ⟨k, c⟩ ∈ a.tasks)
    (hstay : ¬GoesOver a.env c) (hstay' : ¬GoesOver b.env c) :
    (c.step k a.env).map Turn.withoutCut = (c.step k b.env).map Turn.withoutCut := by
  have hc := h.calm _ hk
  rw [← Call.step_withoutCut h.left.sound hc fun len dial he w link hd =>
    hstay ⟨len, dial, w, link, he, hd⟩, ← Call.step_withoutCut h.right.sound hc
    fun len dial he w link hd => hstay' ⟨len, dial, w, link, he, hd⟩]
  exact congrArg (c.step k) h.env

/-- After the same step in both sessions the machines are still alike. -/
theorem advance (h : Alike setup setup' actions a b) {s s' : State} {p : Progress Call Outcome}
    (hruns : a.Runs Stream.behaviour (a.advance k s p))
    (hruns' : b.Runs Stream.behaviour (b.advance k s' p)) (hs : s.withoutCut = s'.withoutCut)
    (hcalm : ∀ c', p = .goesOn c' → c'.isInReplay = false)
    (hasked : setup.strategy.SameQuestions setup'.strategy →
      s.memory.strategy.SameQuestions s'.memory.strategy) :
    Alike setup setup' actions (a.advance k s p) (b.advance k s' p) where
  left := h.left.leads (Moment.leads_of_runs hruns)
  right := h.right.leads (Moment.leads_of_runs hruns')
  same := by rw [withoutCut_advance, withoutCut_advance, h.same, hs]
  calm := by
    intro t ht
    rcases Machine.mem_advance ht with ⟨c', hp, rfl⟩ | ⟨ht, -⟩
    · exact hcalm c' hp
    · exact h.calm t ht
  asked := by
    rw [Machine.env_advance, Machine.env_advance]
    exact hasked

/-- A call that goes over to the second connection does so in both sessions, and has the machines
alike again when its replay is over. -/
theorem goes_over (h : Alike setup setup' actions a b) (hp : setup.PlainReplacement)
    (hp' : setup'.PlainReplacement) {c : Call} (hk : ⟨k, c⟩ ∈ a.tasks)
    (hover : GoesOver a.env c) :
    ∃ a₁ a₂ b₁ b₂, a.step Stream.behaviour k = some a₁ ∧ b.step Stream.behaviour k = some b₁ ∧
      Machine.Goes Stream.behaviour k a₁ a₂ ∧ Machine.Goes Stream.behaviour k b₁ b₂ ∧
      Alike setup setup' actions a₂ b₂ := by
  obtain ⟨len, dial, w', link', rfl, hd'⟩ := h.goesOver_iff.mp hover
  obtain ⟨len, dial, w, link, heq, hd⟩ := hover
  cases heq
  obtain ⟨a₁, s, c, ha, hgoes, hs, hstrategy, hc⟩ := h.left.goes_over hp hk hd
  obtain ⟨b₁, s', c', hb, hgoes', hs', hstrategy', hc'⟩ :=
    h.right.goes_over hp' (h.tasks ▸ hk) hd'
  have hworlds : w.seamless secondLink = w'.seamless secondLink := by
    have hmap := h.dialled_eq dial
    rw [hd, hd'] at hmap
    exact (Prod.mk.inj (Option.some.inj hmap)).1
  have hsame : s.withoutCut = s'.withoutCut := by rw [hs, hs', h.env, hworlds]
  -- Where the read goes on after the replay does not depend on the cut.
  have hcall : c = c' := by
    have hnext := congrArg Prod.snd (congrArg (afterReplay · len) hsame)
    rw [afterReplay_withoutCut, afterReplay_withoutCut] at hnext
    exact Progress.goesOn.inj (hc.symm.trans (hnext.trans hc'))
  subst hcall
  have hhello : a.env.withoutCut.memory.hello = b.env.withoutCut.memory.hello := by rw [h.env]
  refine ⟨a₁, _, b₁, _, ha, hb, hgoes, hgoes', h.advance (.head ⟨k, ha⟩ hgoes.runs)
    (.head ⟨k, hb⟩ hgoes'.runs) hsame ?_ fun hask => ?_⟩
  · intro d hd
    cases hd
    exact isInReplay_of_afterReplay hc
  · rw [hstrategy, hstrategy', show b.env.memory.hello = a.env.memory.hello from hhello.symm]
    exact (h.asked hask).cut _

/-- A step of a call that does not go over to the second connection keeps the machines alike. -/
theorem stays (h : Alike setup setup' actions a b) {c : Call} (hk : ⟨k, c⟩ ∈ a.tasks)
    (hover : ¬GoesOver a.env c) {s : State} {p : Progress Call Outcome}
    (hs : c.step k a.env = some (s, p)) :
    ∃ a₁ b₁, a.step Stream.behaviour k = some a₁ ∧ b.step Stream.behaviour k = some b₁ ∧
      Alike setup setup' actions a₁ b₁ := by
  have hk' : ⟨k, c⟩ ∈ b.tasks := h.tasks ▸ hk
  have hover' : ¬GoesOver b.env c := fun hover' => hover (h.goesOver_iff.mpr hover')
  have hsteps := h.step_of_stays hk hover hover'
  rw [hs] at hsteps
  obtain ⟨⟨s', p'⟩, hs', ht⟩ := Option.map_eq_some_iff.mp hsteps.symm
  obtain ⟨hsame, rfl⟩ := Prod.mk.inj ht
  have ha := Machine.step_of_mem (b := Stream.behaviour) h.left.numbered.nodup hk hs
  have hb := Machine.step_of_mem (b := Stream.behaviour) h.right.numbered.nodup hk' hs'
  obtain ⟨hstrategy, hcalm⟩ := h.left.step_of_stays hk (h.calm _ hk) hover hs
  obtain ⟨hstrategy', -⟩ := h.right.step_of_stays hk' (h.calm _ hk) hover' hs'
  refine ⟨_, _, ha, hb, h.advance (.single ⟨k, ha⟩) (.single ⟨k, hb⟩) hsame.symm hcalm
    fun hask => ?_⟩
  rw [hstrategy, hstrategy']
  exact h.asked hask

/-- A task is blocked in both sessions, or some steps of it keep the machines alike. -/
theorem step (h : Alike setup setup' actions a b) (hp : setup.PlainReplacement)
    (hp' : setup'.PlainReplacement) (k : TaskId) :
    (a.step Stream.behaviour k = none ∧ b.step Stream.behaviour k = none) ∨
    ∃ a₁ a₂ b₁ b₂, a.step Stream.behaviour k = some a₁ ∧ b.step Stream.behaviour k = some b₁ ∧
      Machine.Goes Stream.behaviour k a₁ a₂ ∧ Machine.Goes Stream.behaviour k b₁ b₂ ∧
      Alike setup setup' actions a₂ b₂ := by
  cases hcall : a.call? k with
  | none =>
    left
    unfold Machine.step
    rw [← h.call?, hcall]
    exact ⟨rfl, rfl⟩
  | some c =>
    have hk : ⟨k, c⟩ ∈ a.tasks := Machine.mem_of_call?_eq_some hcall
    by_cases hover : GoesOver a.env c
    · exact Or.inr (h.goes_over hp hp' hk hover)
    · cases hs : c.step k a.env with
      | none =>
        left
        have hover' : ¬GoesOver b.env c := fun hover' => hover (h.goesOver_iff.mpr hover')
        have hsteps := h.step_of_stays hk hover hover'
        rw [hs] at hsteps
        have hs' : c.step k b.env = none := Option.map_eq_none_iff.mp hsteps.symm
        exact ⟨Machine.step_of_blocked hcall hs,
          Machine.step_of_blocked ((h.call? k).symm.trans hcall) hs'⟩
      | some t =>
        obtain ⟨a₁, b₁, ha, hb, h₁⟩ := h.stays hk hover hs
        exact Or.inr ⟨a₁, a₁, b₁, b₁, ha, hb, .refl, .refl, h₁⟩

/-! ## Steps of sessions -/

/-- Polling the same task keeps the machines alike. -/
theorem poll (h : Alike setup setup' actions a b) (hp : setup.PlainReplacement)
    (hp' : setup'.PlainReplacement) {fuel : Nat} (hfuel : rank a ≤ fuel) (k : TaskId) :
    Alike setup setup' actions (a.poll Stream.behaviour fuel k)
      (b.poll Stream.behaviour fuel k) := by
  -- Each round of steps that keeps the machines alike lowers the rank.
  induction hn : rank a using Nat.strongRecOn generalizing a b with
  | ind n ih =>
    rcases h.step hp hp' k with ⟨hnone, hnone'⟩ | ⟨a₁, a₂, b₁, b₂, ha, hb, hgoes, hgoes', h₂⟩
    · rw [Machine.poll_of_blocked hnone, Machine.poll_of_blocked hnone']
      exact h
    · have hra := ranked anything setup actions
      have hrb := ranked anything setup' actions
      have ha₁ := hra.stays h.left ha
      have hb₁ := hrb.stays h.right hb
      have hlt := hra.lowers h.left ha
      have hlt' := hrb.lowers h.right hb
      have hle := (hra.runs ha₁ hgoes.runs).2
      have hrank := h.rank_eq
      rw [hra.poll_of_step h.left hfuel ha, hra.poll_of_goes ha₁ (by omega) hgoes,
        hrb.poll_of_step h.right (by omega) hb, hrb.poll_of_goes hb₁ (by omega) hgoes']
      exact ih _ (by omega) h₂ (by omega) rfl

theorem quiet (h : Alike setup setup' actions a b) (hp : setup.PlainReplacement)
    (hp' : setup'.PlainReplacement) :
    a.quiet Stream.behaviour = b.quiet Stream.behaviour := by
  unfold Machine.quiet
  rw [← h.tasks]
  refine List.all_congr rfl fun t => ?_
  rcases h.step hp hp' t.id with ⟨hnone, hnone'⟩ | ⟨a₁, a₂, b₁, b₂, ha, hb, -⟩
  · rw [hnone, hnone']
  · rw [ha, hb]
    rfl

/-- The scheduler keeps the machines alike. -/
theorem settle (h : Alike setup setup' actions a b) (hp : setup.PlainReplacement)
    (hp' : setup'.PlainReplacement) :
    Alike setup setup' actions (a.settle Stream.behaviour) (b.settle Stream.behaviour) := by
  have hfuel := rank_le a
  unfold Machine.settle
  rw [← h.effort_eq]
  generalize Stream.behaviour.effort a.env (a.tasks.map (·.call)) = fuel at hfuel
  have hpolled : ∀ a b k, Alike setup setup' actions a b ∧ rank a ≤ fuel →
      Alike setup setup' actions (a.poll Stream.behaviour fuel k)
        (b.poll Stream.behaviour fuel k) ∧ rank (a.poll Stream.behaviour fuel k) ≤ fuel := by
    intro a b k h
    have hruns := (ranked anything setup actions).runs h.1.left (Machine.runs_poll _ k fuel a)
    exact ⟨h.1.poll hp hp' h.2 k, Nat.le_trans hruns.2 h.2⟩
  have hkept : Alike setup setup' actions (a.passes Stream.behaviour fuel fuel)
      (b.passes Stream.behaviour fuel fuel) ∧ rank (a.passes Stream.behaviour fuel fuel) ≤ fuel :=
    Machine.passes_related (R := fun a b => Alike setup setup' actions a b ∧ rank a ≤ fuel)
      (fun _ _ h => h.1.pending) (fun _ _ h => h.1.quiet hp hp') hpolled fuel ⟨h, hfuel⟩
  exact hkept.1

theorem act (h : Alike setup setup' actions a b) (action : Action) :
    Alike setup setup' (actions ++ [action]) (StreamSession.act a actions.length action)
      (StreamSession.act b actions.length action) := by
  have hacts := acts_act ⟨actions, a⟩ action
  have hacts' := acts_act ⟨actions, b⟩ action
  refine ⟨h.left.leads (.single (.act action trivial)),
    h.right.leads (.single (.act action trivial)), ?_, ?_, ?_⟩
  · rw [withoutCut_act, withoutCut_act, h.same]
  · rintro ⟨j, d⟩ hd
    rcases hacts.mem_tasks hd with hold | ⟨request, -, -, rfl⟩
    · exact h.calm _ hold
    · rfl
  · intro hask
    have hstrategy : (StreamSession.act a actions.length action).env.memory.strategy =
        a.env.memory.strategy := hacts.sameGuarded.strategy
    have hstrategy' : (StreamSession.act b actions.length action).env.memory.strategy =
        b.env.memory.strategy := hacts'.sameGuarded.strategy
    rw [hstrategy, hstrategy']
    exact h.asked hask

/-- A step of the session keeps the machines alike. -/
theorem next (h : Alike setup setup' actions a b) (hp : setup.PlainReplacement)
    (hp' : setup'.PlainReplacement) (action : Action) :
    Alike setup setup' (actions ++ [action]) (StreamSession.next a actions.length action)
      (StreamSession.next b actions.length action) := (h.act action).settle hp hp'

end Alike

/-! ## Reports -/

/-- Two descriptions of a stream that differ in the place of the cut at most. -/
structure Description.SameButCut (d d' : Description) : Prop where
  stream : d.stream = d'.stream
  stats : ∃ stats stats' : Option Stats,
    stats.map Stats.withoutSplit = stats'.map Stats.withoutSplit ∧
    d.stats = stats.map statsText ∧ d'.stats = stats'.map statsText

/-- Two reports of a connection that differ in the boundaries of the writes on the second connection
at most. -/
structure SameButSeams (r r' : LinkReport) : Prop where
  others : { r with wrote := [] } = { r' with wrote := [] }
  writes : r.link ≠ secondLink → r.wrote = r'.wrote
  bytes : r.wrote.flatten = r'.wrote.flatten

/-- Two reports of a step that differ in what shows the place of the cut at most; `asked` says that
the strategies are of one kind and have been asked the same before. -/
structure Entry.SameButCut (asked : Prop) (e e' : Entry) : Prop where
  done : e.done = e'.done
  pending : e.pending = e'.pending
  decided : e.decided = e'.decided
  stats : e.stats.map Stats.withoutSplit = e'.stats.map Stats.withoutSplit
  dials : e.dials = e'.dials
  questions : asked → e.questions = e'.questions
  links : List.Forall₂ SameButSeams e.links e'.links
  notices : e.notices.map Notice.withoutSplit = e'.notices.map Notice.withoutSplit
  description : Option.Rel Description.SameButCut e.description e'.description

theorem sameButSeams_linkReports {w w' : World} {es es' j j' : Journal}
    (hw : w.seamless secondLink = w'.seamless secondLink) (hj : w.journal = es ++ j)
    (hj' : w'.journal = es' ++ j') (hes : es.seamless secondLink = es'.seamless secondLink) :
    List.Forall₂ SameButSeams (linkReports w j.length) (linkReports w' j'.length) := by
  have hlinks : w.links = w'.links := (congrArg World.links hw :)
  have hjournal : w.journal.seamless secondLink = w'.journal.seamless secondLink :=
    (congrArg World.journal hw :)
  have hcount : ∀ p : Event → Bool,
      (∀ k bytes, p (.accepted secondLink (.replay k) bytes) = false) →
      (∀ n, p (.noticed n) = false) → w.journal.count p = w'.journal.count p := by
    intro p hwrite hnotice
    rw [← Journal.count_seamless hwrite hnotice, hjournal, Journal.count_seamless hwrite hnotice]
  unfold linkReports
  rw [← hlinks]
  refine List.rel_filterMap (R := Eq) ?_ (List.forall₂_same.mpr fun _ _ => rfl)
  rintro ⟨l, i⟩ _ rfl
  cases l with
  | none => exact .none
  | some l =>
    refine .some ⟨?_, fun hi => ?_, ?_⟩
    · unfold linkReport
      dsimp only
      rw [hcount (Event.isDeadlineOf i) (fun _ _ => rfl) fun _ => rfl,
        hcount (Event.isShutOf i .read) (fun _ _ => rfl) fun _ => rfl,
        hcount (Event.isShutOf i .write) (fun _ _ => rfl) fun _ => rfl,
        hcount (Event.isCloseOf i) (fun _ _ => rfl) fun _ => rfl]
    · have hi : i ≠ secondLink := hi
      have hsame : es.writes i = es'.writes i := by
        rw [← Journal.writes_seamless_of_ne hi, hes, Journal.writes_seamless_of_ne hi]
      show (w.journal.after j.length).writes i = (w'.journal.after j'.length).writes i
      rw [hj, hj', Journal.after_append, Journal.after_append, hsame]
    · have hsame : es.bytesAccepted i = es'.bytesAccepted i := by
        rw [← Journal.bytesAccepted_seamless i, hes, Journal.bytesAccepted_seamless]
      show (w.journal.after j.length).bytesAccepted i = (w'.journal.after j'.length).bytesAccepted i
      rw [hj, hj', Journal.after_append, Journal.after_append, hsame]

namespace Alike

variable {actions' : List Action} {a' b' : StreamMachine}

theorem world (h : Alike setup setup' actions a b) :
    a.env.world.seamless secondLink = b.env.world.seamless secondLink :=
  (congrArg State.world h.env :)

theorem journal (h : Alike setup setup' actions a b) :
    a.env.world.journal.seamless secondLink = b.env.world.journal.seamless secondLink :=
  (congrArg World.journal h.world :)

theorem isDecided (h : Alike setup setup' actions a b) : a.env.isDecided = b.env.isDecided := by
  rw [← State.isDecided_withoutCut, h.env, State.isDecided_withoutCut]

theorem stats (h : Alike setup setup' actions a b) :
    a.env.stats?.map Stats.withoutSplit = b.env.stats?.map Stats.withoutSplit := by
  rw [← State.stats?_withoutCut, h.env, State.stats?_withoutCut]

theorem describe (h : Alike setup setup' actions a b) (action : Action) :
    Option.Rel Description.SameButCut (StreamSession.describe a action)
      (StreamSession.describe b action) := by
  have hterms : a.env.terms = b.env.terms := (congrArg State.terms h.env :)
  have hmemory : a.env.memory.withoutCut = b.env.memory.withoutCut :=
    (congrArg State.memory h.env :)
  have hread : a.env.memory.readShut = b.env.memory.readShut :=
    (congrArg Memory.readShut hmemory :)
  have hwrite : a.env.memory.writeShut = b.env.memory.writeShut :=
    (congrArg Memory.writeShut hmemory :)
  have htext : streamText a.env = streamText b.env := by
    unfold streamText
    rw [hterms, hread, hwrite, h.isDecided]
  cases action with
  | describe => exact .some ⟨htext, _, _, h.stats, rfl, rfl⟩
  | _ => exact .none

/-- The reports of a step of the session differ in what shows the place of the cut at most. -/
theorem entry (h : Alike setup setup' actions a b) (h' : Alike setup setup' actions' a' b')
    (hj : a.env.world.journal <:+ a'.env.world.journal)
    (hj' : b.env.world.journal <:+ b'.env.world.journal) (action : Action) :
    Entry.SameButCut (setup.strategy.SameQuestions setup'.strategy)
      (StreamSession.entry a a' action) (StreamSession.entry b b' action) := by
  obtain ⟨es, hes⟩ := hj
  obtain ⟨es', hes'⟩ := hj'
  have hnew : Journal.seamless secondLink es = Journal.seamless secondLink es' := by
    have hall := h'.journal
    rw [← hes, ← hes', Journal.seamless_append, Journal.seamless_append, h.journal] at hall
    exact List.append_cancel_right hall
  refine ⟨?_, h'.pending, h'.isDecided, h'.stats, ?_, fun hask => (h'.asked hask).questions,
    sameButSeams_linkReports h'.world hes.symm hes'.symm hnew, ?_, h.describe action⟩
  · show a'.finishedAfter a.finished.length = b'.finishedAfter b.finished.length
    unfold Machine.finishedAfter
    rw [h.finished, h'.finished]
  · show a'.env.world.journal.dials = b'.env.world.journal.dials
    have hdials := congrArg Journal.dials h'.journal
    rw [Journal.dials_seamless, Journal.dials_seamless] at hdials
    exact hdials
  · show (a'.env.world.journal.after _).notices.map _ = (b'.env.world.journal.after _).notices.map _
    rw [← hes, ← hes', Journal.after_append, Journal.after_append, ← Journal.notices_seamless, hnew,
      Journal.notices_seamless]

/-- Whatever the steps of the session, their reports differ in what shows the place of the cut at
most, and the machines stay alike. -/
theorem run (h : Alike setup setup' actions a b) (hp : setup.PlainReplacement)
    (hp' : setup'.PlainReplacement) (later : List Action) :
    List.Forall₂ (Entry.SameButCut (setup.strategy.SameQuestions setup'.strategy))
      (runFrom a actions.length later) (runFrom b actions.length later) ∧
    Alike setup setup' (actions ++ later) (Moment.play ⟨actions, a⟩ later).machine
      (Moment.play ⟨actions, b⟩ later).machine := by
  induction later generalizing actions a b with
  | nil => exact ⟨.nil, (List.append_nil actions).symm ▸ h⟩
  | cons action later ih =>
    have hnext := h.next hp hp' action
    have hlen : (actions ++ [action]).length = actions.length + 1 := List.length_append
    obtain ⟨hreports, hlast⟩ := ih hnext
    have hl : Moment.Leads anything ⟨actions, a⟩ (Moment.next ⟨actions, a⟩ action) :=
      Moment.leads_next trivial
    have hl' : Moment.Leads anything ⟨actions, b⟩ (Moment.next ⟨actions, b⟩ action) :=
      Moment.leads_next trivial
    rw [hlen] at hreports
    rw [List.append_cons]
    exact ⟨.cons (h.entry hnext (hl.journal h.left) (hl'.journal h.right) action) hreports, hlast⟩

end Alike

/-! ## Sessions -/

/-- Moments of two sessions that differ in what shows the place of the cut at most. -/
structure Moment.SameButCut (m m' : Moment) : Prop where
  finished : m.machine.finished = m'.machine.finished
  pending : m.machine.pending = m'.machine.pending
  clock : m.state.world.now = m'.state.world.now
  /-- The connections have met the same, and have the same before them. -/
  links : m.state.world.links = m'.state.world.links
  accepted : ∀ link, m.journal.bytesAccepted link = m'.journal.bytesAccepted link
  final : m.state.finalLink? = m'.state.finalLink?
  settledAt : m.journal.settledAt = m'.journal.settledAt

theorem Alike.sameButCut {m m' : Moment}
    (h : Alike setup setup' actions m.machine m'.machine) : m.SameButCut m' where
  finished := h.finished
  pending := h.pending
  clock := (congrArg World.now h.world :)
  links := (congrArg World.links h.world :)
  accepted := by
    intro link
    unfold Moment.journal
    rw [← Journal.bytesAccepted_seamless link, h.journal, Journal.bytesAccepted_seamless]
  final := by
    unfold Moment.state
    rw [← State.finalLink?_withoutCut, h.env, State.finalLink?_withoutCut]
  settledAt := by
    unfold Moment.journal
    rw [← Journal.settledAt_seamless _ secondLink, h.journal, Journal.settledAt_seamless]

theorem Setup.SameButCut.opening (h : setup.SameButCut setup') :
    setup'.opening = match setup.opening with
      | .failed f w => .failed f w
      | .opened s => .opened { s with memory := .start s.memory.current setup'.strategy } := by
  unfold Setup.opening Config.timeoutFor
  rw [h.destination, h.baseTimeout, h.rttFactor, h.chunkLen, h.clock, h.dials]
  dsimp only
  split <;> rfl

/-- Sessions that differ in the cut are opened with streams that do. -/
theorem Setup.SameButCut.alike (h : setup.SameButCut setup') {s : State}
    (hs : setup.opening = .opened s) : ∃ s', setup'.opening = .opened s' ∧ s.terms = s'.terms ∧
      s.world = s'.world ∧ Alike setup setup' [] (.idle s) (.idle s') := by
  have hs' := h.opening
  have hmemory := memory_of_opening hs
  rw [hs] at hs'
  dsimp only at hs'
  rw [hmemory] at hs'
  refine ⟨_, hs', rfl, rfl, ⟨s, hs, .refl⟩, ⟨_, hs', .refl⟩, ?_, ?_, ?_⟩
  · show Machine.mk (State.mk s.terms s.memory.withoutCut _) _ _ = Machine.mk (State.mk _ _ _) _ _
    rw [hmemory]
    rfl
  · intro t ht
    exact absurd ht List.not_mem_nil
  · intro hask
    show s.memory.strategy.SameQuestions setup'.strategy
    rw [hmemory]
    exact hask

/-- The split strategy influences nothing but the cut. If two sessions differ in it only, and the
connection that a retry would make takes something of every write at once, then the one is opened if
the other is, every step of them has the same report, and they come to the same: the same calls have
ended in the same order with the same outcomes and the same ones are left, at the same time, with
connections that have accepted the same bytes and are in the same state, and the question has been
settled at the same time on the same connection. Only the boundaries of the writes on the second
connection and the place of the cut in reports differ. -/
theorem only_cut_differs (hsame : setup.SameButCut setup') (hplain : setup.PlainReplacement)
    (actions : List Action) :
    (∃ f w, setup.opening = .failed f w ∧ setup'.opening = .failed f w) ∨
    ∃ s s', setup.opening = .opened s ∧ setup'.opening = .opened s' ∧
      s.terms = s'.terms ∧ s.world = s'.world ∧
      List.Forall₂ (Entry.SameButCut (setup.strategy.SameQuestions setup'.strategy))
        (run s actions) (run s' actions) ∧
      ((Moment.first s).play actions).SameButCut ((Moment.first s').play actions) := by
  have hplain' : setup'.PlainReplacement := by
    unfold Setup.PlainReplacement
    rw [← hsame.dials]
    exact hplain
  cases hopening : setup.opening with
  | failed f w =>
    have hopening' := hsame.opening
    rw [hopening] at hopening'
    exact Or.inl ⟨f, w, rfl, hopening'⟩
  | opened s =>
    obtain ⟨s', hs', hterms, hworld, halike⟩ := hsame.alike hopening
    obtain ⟨hreports, hlast⟩ := halike.run hplain hplain' actions
    exact Or.inr ⟨s, s', rfl, hs', hterms, hworld, hreports, hlast.sameButCut⟩

/-- A session like `resetSession`, in which the hello stays in one piece. -/
def uncutSession : Setup := { resetSession with strategy := .scripted ⟨0, [], []⟩ }

/-- A retry replays the hello in two writes or in one, and nothing else differs. -/
theorem only_cut_differs_in_uncut : ∃ s s',
    resetSession.opening = .opened s ∧ uncutSession.opening = .opened s' ∧
    ((Moment.first s).play [.call (.write [1, 2, 3]), .call (.read 4), reply]).SameButCut
      ((Moment.first s').play [.call (.write [1, 2, 3]), .call (.read 4), reply]) ∧
    ((Moment.first s).play [.call (.write [1, 2, 3]), .call (.read 4), reply]).journal.writes
      secondLink = [[1], [2, 3]] ∧
    ((Moment.first s').play [.call (.write [1, 2, 3]), .call (.read 4), reply]).journal.writes
      secondLink = [[1, 2, 3]] := by
  have hsame : resetSession.SameButCut uncutSession := ⟨rfl, rfl, rfl, rfl, rfl, rfl⟩
  have hplain : resetSession.PlainReplacement := by
    rintro g script hg hscript
    cases hg
    cases hscript
    exact ⟨rfl, nofun⟩
  rcases only_cut_differs hsame hplain [.call (.write [1, 2, 3]), .call (.read 4), reply] with
    ⟨f, w, hf, -⟩ | ⟨s, s', hs, hs', -, -, -, hm⟩
  · cases hf
  · refine ⟨s, s', hs, hs', hm, ?_, ?_⟩
    · cases hs
      decide +kernel
    · cases hs'
      decide +kernel

end StreamSession

end Redial
