import Redial.Proofs.Stream.Waiting
import Redial.Proofs.Wire.Outcomes

/-!
# The effort of calls

Every step of a call leaves less to do (`Effect.lowers`): less for the call itself (`Call.weight`),
fewer outcomes of writes to come, or less of a retry (`State.retryWeight`). The bound that the
behaviour of a stream gives is above all of that, so the scheduler never runs out of fuel: after
each step of a session every unfinished call is blocked (`Reachable.quiet_next`).
-/

namespace Redial

namespace Stream

/-! ## Weights -/

/-- What a write is part of weighs, the write itself apart. -/
def Goal.weight : Goal → Nat
  | once => 0
  | all => 0
  | copy _ source => 8 * source.work + 6

/-- What is left weighs when `buf` is to be written on a final connection. -/
def Goal.writeWeight (goal : Goal) (buf : Bytes) : Nat := goal.weight + 4 * buf.length + 1

/-- What a request weighs. -/
def requestWeight : Request → Nat
  | .read _ => 12
  | .write buf => 4 * buf.length + 7
  | .writeAll buf => 4 * buf.length + 7
  | .copy source => 8 * source.work + 12
  | .shut _ => 4

/-- What an errand weighs. -/
def Errand.weight : Errand → Nat
  | locate _ => 9
  | confirmEnd => 3
  | judge .. => 7
  | send goal buf => goal.writeWeight buf + 5
  | shut _ => 3

/-- What waiting weighs. One who falls asleep before the question is settled is woken by that. -/
def waiterWeight (decided : Bool) : Waiter → Nat
  | .arriving => if decided then 1 else 3
  | .asleep _ => 2

/-- What is left of a call weighs; it matters to some whether the question is settled. -/
def Call.weight (decided : Bool) : Call → Nat
  | start request => requestWeight request
  | queued errand => errand.weight
  | reading .. => 8
  | redialling .. => 16
  | replaying _ cut piece rest =>
    rest.length + 8 + (match piece with | .first => cut.second.length + 2 | .second => 0)
  | reshutting _ half => match half with | .read => 4 | .write => 3
  | answering _ => 2
  | sending goal buf => goal.writeWeight buf + 4
  | awaiting goal buf waiter => goal.writeWeight buf + waiterWeight decided waiter
  | sendingTo _ goal buf => goal.writeWeight buf
  | looking _ source => 8 * source.work + 10
  | pulling _ source => 8 * source.work + 9
  | shutting _ => 1
  | bare _ call => call.work

/-- What a retry weighs that can still be made, or that has not gone over to the second connection
yet. -/
def State.retryWeight (s : State) : Nat :=
  if s.isDecided = true ∨ s.memory.current = secondLink then 0
  else 2 * s.memory.hello.length + if s.memory.retried then 0 else 32

/-- What the shared state weighs. An outcome of a write weighs as much as trying that write again.
-/
def State.weight (s : State) : Nat := 8 * s.world.outcomesLeft + s.retryWeight

section Weights

variable {k : TaskId} {s s₁ : State} {c c' : Call} {p : Progress Call Outcome} {d d' : Bool}

theorem Call.weight_mono (h : d = true → d' = true) (c : Call) : c.weight d' ≤ c.weight d := by
  cases c with
  | awaiting goal buf waiter =>
    refine Nat.add_le_add_left ?_ _
    cases waiter with
    | asleep listener => exact Nat.le_refl _
    | arriving =>
      cases d with
      | true =>
        exact Nat.le_of_eq (by rw [h rfl])
      | false =>
        show (if d' = true then 1 else 3) ≤ 3
        split <;> decide
  | _ => exact Nat.le_refl _

theorem Goal.weight_le (goal : Goal) : goal.weight ≤ goal.work := by
  cases goal with
  | once => exact Nat.le_refl _
  | all => exact Nat.le_refl _
  | copy copied source => exact Nat.add_le_add_left (by decide) _

/-- The bound of a behaviour for what is left of a call is above its weight. -/
theorem Call.weight_le (d : Bool) (c : Call) : c.weight d ≤ c.work := by
  have hwrite : ∀ (goal : Goal) (buf : Bytes),
      goal.writeWeight buf + 5 ≤ goal.work + bufferWork buf := by
    intro goal buf
    have hgoal := goal.weight_le
    unfold Goal.writeWeight bufferWork
    omega
  cases c with
  | start request =>
    cases request with
    | write buf | writeAll buf =>
      show 4 * buf.length + 7 ≤ bufferWork buf + 2
      unfold bufferWork
      omega
    | _ => exact Nat.le_refl _
  | queued errand =>
    cases errand with
    | send goal buf => exact Nat.le_succ_of_le (hwrite goal buf)
    | locate | confirmEnd | judge | shut => exact Nat.le_of_ble_eq_true rfl
  | replaying len cut piece rest => cases piece <;> exact Nat.le_refl _
  | reshutting len half => cases half <;> exact Nat.le_of_ble_eq_true rfl
  | sending goal buf => exact Nat.le_trans (Nat.le_succ _) (hwrite goal buf)
  | sendingTo link goal buf => exact Nat.le_trans (Nat.le_add_right _ 5) (hwrite goal buf)
  | awaiting goal buf waiter =>
    have hwaiter : waiterWeight d waiter ≤ 5 := by
      cases waiter with
      | asleep listener => exact Nat.le_of_ble_eq_true rfl
      | arriving => cases d <;> exact Nat.le_of_ble_eq_true rfl
    exact Nat.le_trans (Nat.add_le_add_left hwaiter _) (hwrite goal buf)
  | _ => exact Nat.le_refl _

theorem State.retryWeight_le (s : State) :
    s.retryWeight ≤ 2 * s.memory.hello.length + 32 := by
  unfold retryWeight
  split
  · exact Nat.zero_le _
  · split <;> omega

theorem State.retryWeight_congr (hd : s₁.isDecided = s.isDecided)
    (hcur : s₁.memory.current = s.memory.current) (hhello : s₁.memory.hello = s.memory.hello)
    (ht : s₁.memory.retried = s.memory.retried) : s₁.retryWeight = s.retryWeight := by
  unfold retryWeight
  rw [hd, hcur, hhello, ht]

theorem State.retryWeight_of_first (hd : s.isDecided = false)
    (hcur : s.memory.current = firstLink) : s.retryWeight =
      2 * s.memory.hello.length + if s.memory.retried then 0 else 32 := by
  refine if_neg ?_
  rintro (hd' | hcur')
  · rw [hd] at hd'
    cases hd'
  · rw [hcur] at hcur'
    cases hcur'

/-- What is remembered may have to be replayed. -/
theorem State.retryWeight_push (s : State) (bytes : Bytes) :
    (s.push bytes).retryWeight ≤ s.retryWeight + 2 * bytes.length := by
  have hlen : (s.push bytes).memory.hello.length = s.memory.hello.length + bytes.length :=
    s.memory.hello.length_push bytes
  unfold retryWeight
  rw [hlen]
  show (if s.isDecided = true ∨ s.memory.current = secondLink then 0
    else _ + if s.memory.retried = true then 0 else 32) ≤ _
  split <;> omega

theorem State.retryWeight_settle (s : State) : s.settle.retryWeight = 0 :=
  if_pos (Or.inl isDecided_settle)

/-! ## Writes -/

theorem load_offer_of_final {link : LinkId} (h : s.finalLink? = some link) (goal : Goal)
    (buf : Bytes) : (offer s k goal buf).2.load (Call.weight d) = goal.writeWeight buf := by
  unfold offer
  rw [h]
  rfl

theorem load_offer_le (s : State) (k : TaskId) (d : Bool) (goal : Goal) (buf : Bytes) :
    (offer s k goal buf).2.load (Call.weight d) ≤ goal.writeWeight buf + 5 := by
  rcases offer_cases s k goal buf with ⟨link, -, ho⟩ | ⟨-, ho⟩
  · rw [ho]
    exact Nat.le_add_right _ _
  · rw [ho]
    exact Nat.le_refl _

/-- Where a write in a loop leads that has taken `bytes`. -/
theorem afterWrite_accepted (s : State) (k : TaskId) (goal : Goal) {buf bytes : Bytes}
    (hb : bytes ≠ []) (hp : bytes <+: buf) :
    (∃ o, (afterWrite s k buf (.ok bytes) goal).2 = .done o) ∨
    (∃ copied source, goal.weight = 8 * source.work + 6 ∧
      (afterWrite s k buf (.ok bytes) goal).2 = .goesOn (.looking copied source)) ∨
    ∃ goal' rest, goal'.weight = goal.weight ∧ rest.length + bytes.length = buf.length ∧
      (afterWrite s k buf (.ok bytes) goal).2 = (offer s k goal' rest).2 := by
  have hlen : (buf.drop bytes.length).length + bytes.length = buf.length := by
    have hle := hp.length_le
    rw [List.length_drop]
    omega
  cases goal with
  | once => exact Or.inl ⟨_, rfl⟩
  | all =>
    cases bytes with
    | nil => exact absurd rfl hb
    | cons b bs =>
      unfold afterWrite
      dsimp only
      split
      · exact Or.inl ⟨_, rfl⟩
      · exact Or.inr (Or.inr ⟨_, _, rfl, hlen, rfl⟩)
  | copy copied source =>
    cases bytes with
    | nil => exact absurd rfl hb
    | cons b bs =>
      unfold afterWrite
      dsimp only
      split
      · exact Or.inr (Or.inl ⟨_, _, rfl, rfl⟩)
      · exact Or.inr (Or.inr ⟨.copy (copied + (b :: bs).length) source, _, rfl, hlen, rfl⟩)

theorem afterWrite_nil (s : State) (k : TaskId) (buf : Bytes) (goal : Goal) :
    ∃ o, (afterWrite s k buf (.ok []) goal).2 = .done o := by
  cases goal <;> exact ⟨_, rfl⟩

/-- A write that fails in a loop ends it, unless it was merely interrupted. -/
theorem afterWrite_failed (s : State) (k : TaskId) (buf : Bytes) (f : Fault) (goal : Goal) :
    (∃ o, (afterWrite s k buf (.error f) goal).2 = .done o) ∨
      (f.isInterrupted = true ∧
        (afterWrite s k buf (.error f) goal).2 = (offer s k goal buf).2) := by
  cases goal with
  | all =>
    unfold afterWrite
    dsimp only
    split
    · rename_i hf
      exact Or.inr ⟨hf, rfl⟩
    · exact Or.inl ⟨_, rfl⟩
  | _ => exact Or.inl ⟨_, rfl⟩

/-- A write on the connection in use leaves less to do, even if what it took may yet be replayed. -/
theorem load_afterSending {buf bytes : Bytes} (hp : bytes <+: buf) (goal : Goal) :
    (afterWrite s k buf (.ok bytes) goal).2.load (Call.weight d) + 2 * bytes.length <
      goal.writeWeight buf + 4 := by
  have hle := hp.length_le
  unfold Goal.writeWeight
  by_cases hb : bytes = []
  · subst hb
    obtain ⟨o, ho⟩ := afterWrite_nil s k buf goal
    rw [ho]
    show 0 + 2 * 0 < _
    omega
  · have hpos : 0 < bytes.length := List.length_pos_of_ne_nil hb
    rcases afterWrite_accepted s k goal hb hp with
      ⟨o, ho⟩ | ⟨copied, source, hweight, ho⟩ | ⟨goal', rest, hweight, hrest, ho⟩
    · rw [ho]
      show 0 + _ < _
      omega
    · rw [ho, hweight]
      show 8 * source.work + 10 + _ < _
      omega
    · have hoffer := load_offer_le s k d goal' rest
      unfold Goal.writeWeight at hoffer
      rw [ho]
      omega

/-- A write on a final connection leaves less to do, or the same if it is interrupted. -/
theorem load_afterSendingTo {link : LinkId} (hd : s.finalLink? = some link) {buf : Bytes}
    {r : Except Fault Bytes} (hp : ∀ bytes, r = .ok bytes → bytes <+: buf) (goal : Goal) :
    (afterWrite s k buf r goal).2.load (Call.weight d) < goal.writeWeight buf ∨
      (∃ f, r = .error f ∧ f.isInterrupted = true ∧
        (afterWrite s k buf r goal).2.load (Call.weight d) = goal.writeWeight buf) := by
  have hpos : 0 < goal.writeWeight buf := Nat.succ_pos _
  cases r with
  | error f =>
    rcases afterWrite_failed s k buf f goal with ⟨o, ho⟩ | ⟨hf, ho⟩
    · rw [ho]
      exact Or.inl hpos
    · refine Or.inr ⟨f, rfl, hf, ?_⟩
      rw [ho]
      exact load_offer_of_final hd goal buf
  | ok bytes =>
    refine Or.inl ?_
    by_cases hb : bytes = []
    · subst hb
      obtain ⟨o, ho⟩ := afterWrite_nil s k buf goal
      rw [ho]
      exact hpos
    · have hlen : 0 < bytes.length := List.length_pos_of_ne_nil hb
      have hle := (hp bytes rfl).length_le
      rcases afterWrite_accepted s k goal hb (hp bytes rfl) with
        ⟨o, ho⟩ | ⟨copied, source, hweight, ho⟩ | ⟨goal', rest, hweight, hrest, ho⟩
      · rw [ho]
        exact hpos
      · rw [ho]
        unfold Goal.writeWeight
        rw [hweight]
        show 8 * source.work + 10 < _
        omega
      · rw [ho, load_offer_of_final hd]
        unfold Goal.writeWeight
        rw [hweight]
        omega

/-! ## Steps -/

theorem load_waiting {goal : Goal} {buf : Bytes} {waiter waiter' : Waiter} (hr : s.RungOnce)
    (hl : (Call.awaiting goal buf waiter).Listens)
    (hw : waiter.step s.memory.decision = some (.waiting waiter')) :
    waiterWeight s.isDecided waiter' < waiterWeight s.isDecided waiter := by
  cases waiter with
  | arriving =>
    -- Who falls asleep has found the question open.
    by_cases hd : s.memory.decision.isSet = true
    · rw [Waiter.step, if_pos hd] at hw
      cases hw
    · rw [Waiter.step, if_neg hd] at hw
      cases hw
      rw [show s.isDecided = false from Bool.not_eq_true _ ▸ hd]
      exact Nat.lt_succ_self 2
  | asleep listener =>
    -- The bell has rung, so the question is settled.
    by_cases hwoken : listener.woken s.memory.decision.bell = true
    · rw [Waiter.step, if_pos hwoken] at hw
      cases hw
      have hrings : 0 < s.memory.decision.bell.rings :=
        Nat.lt_of_le_of_lt (Nat.zero_le _) (of_decide_eq_true hwoken)
      unfold State.RungOnce at hr
      cases hd : s.isDecided with
      | true => exact Nat.one_lt_two
      | false =>
        rw [hr, hd] at hrings
        exact absurd hrings (Nat.lt_irrefl 0)
    · rw [Waiter.step, if_neg hwoken] at hw
      cases hw

theorem Passes.lowers (h : Passes k s c p) (hr : s.RungOnce) (hl : c.Listens) :
    p.load (Call.weight s.isDecided) < c.weight s.isDecided := by
  cases h with
  | beginRead | beginBareRead | emptyWrite | emptyWriteAll | locate | confirmEnd | bringLate
  | beginShutting => exact Nat.le_of_ble_eq_true rfl
  | @beginWrite buf | @beginWriteAll buf =>
    refine Nat.lt_succ_of_le (Nat.le_trans (load_offer_le s k _ _ buf) ?_)
    exact Nat.le_of_eq (congrArg (· + 5) (congrArg (· + 1) (Nat.zero_add _)))
  | beginCopy | lookOpen => exact Nat.add_lt_add_left (by decide) _
  | sendFinal => exact Nat.lt_add_of_pos_right (by decide)
  | beginSending => exact Nat.lt_succ_self _
  | @nextPiece len cut =>
    show cut.second.length + 8 + 0 < 0 + 8 + (cut.second.length + 2)
    omega
  | @replayed len cut =>
    have hreshut : ∀ c', (reshutWrite s len).2 = .goesOn c' → c'.weight s.isDecided ≤ 3 := by
      intro c' hc'
      cases writeHalfNext_of_reshutWrite hc' with
      | asked => exact Nat.le_refl _
      | notAsked => exact Nat.le_of_ble_eq_true rfl
    rcases afterReplay_cases s len with ⟨-, ha⟩ | ⟨-, ha⟩
    · rw [ha]
      exact Nat.le_of_ble_eq_true rfl
    · rw [ha]
      exact Nat.lt_of_le_of_lt (hreshut _ rfl) (Nat.le_of_ble_eq_true rfl)
  | goOnWaiting hw => exact Nat.add_lt_add_left (load_waiting hr hl hw) _
  | @released goal buf waiter hw =>
    refine Nat.lt_add_of_pos_right ?_
    cases waiter with
    | asleep listener => exact Nat.two_pos
    | arriving =>
      show 0 < if s.isDecided = true then 1 else 3
      split <;> decide
  | @lookDecided copied source =>
    show 0 + source.work + 1 < 8 * source.work + 10
    omega
  | pullEnd | pullFault => exact Nat.succ_pos _
  | @pullPiece copied source source' piece hp hb =>
    have hpos : 0 < piece.length := List.length_pos_of_ne_nil hb
    have hpull := Source.work_pull_ok hp
    refine Nat.lt_of_le_of_lt (load_offer_le s k _ _ piece) ?_
    show 8 * source'.work + 6 + 4 * piece.length + 1 + 5 < 8 * source.work + 9
    omega
  | @pullInterrupted copied source source' f hp =>
    have hpull := Source.work_pull_error hp
    show 8 * source'.work + 10 < 8 * source.work + 9
    omega

theorem State.Sound.second_pending (hs : s.Sound) (ht : s.memory.retried = true)
    (hcur : s.memory.current = firstLink) : s.world.links[secondLink]? = some none := by
  have hlen : s.world.links.length = 2 := by
    rw [hs.dials, ht]
    rfl
  have hnone := hs.second_eq_none hcur
  have hlt : secondLink < s.world.links.length := hlen ▸ Nat.one_lt_two
  unfold World.link? at hnone
  rw [List.getElem?_eq_getElem hlt] at hnone ⊢
  exact congrArg some hnone

theorem outcomesLeft_retryWorld {l : Link} (hl : s.world.link? s.memory.current = some l)
    (cause : Fault) : (retryWorld s l cause).outcomesLeft = s.world.outcomesLeft := by
  show World.scriptedWrites s.world.dials _ = _
  unfold retryWorld
  rw [World.scriptedWrites_append_none]
  exact World.outcomesLeft_setLink_of_same hl (Link.writes_close l)

/-- What is left after a step that ends its call and settles the question. -/
theorem weight_settles {s' : State} (h : s'.world.outcomesLeft ≤ s.world.outcomesLeft) (o : Outcome)
    (hpos : 0 < c.weight s.isDecided) :
    s'.settle.weight + (Progress.done o).load (Call.weight s'.settle.isDecided) <
      s.weight + c.weight s.isDecided := by
  unfold State.weight
  rw [State.retryWeight_settle]
  show 8 * s'.world.outcomesLeft + 0 + 0 < _
  omega

/-- What is left after a step that changes nothing of the retry. -/
theorem weight_keeps {w : World} {a b : Nat}
    (h : 8 * w.outcomesLeft + a < 8 * s.world.outcomesLeft + b) :
    (s.withWorld w).weight + a < s.weight + b := by
  have hsame : (s.withWorld w).retryWeight = s.retryWeight :=
    State.retryWeight_congr rfl rfl rfl rfl
  unfold State.weight
  rw [hsame]
  show 8 * w.outcomesLeft + _ + _ < _
  omega

/-- Dropping the first connection takes the retry that could be made away. -/
theorem weight_beginRetry (hs : s.Sound) (ht : s.memory.retried = false)
    (hd : s.isDecided = false) (len : Nat) (f : Fault) :
    (beginRetry s len f).1.weight +
        (beginRetry s len f).2.load (Call.weight (beginRetry s len f).1.isDecided) <
      s.weight + 7 := by
  obtain ⟨l, hcur⟩ := hs.current_isSome
  have hfirst := hs.current_eq_first ht
  have hbefore : s.retryWeight = 2 * s.memory.hello.length + 32 := by
    rw [State.retryWeight_of_first hd hfirst, ht]
    rfl
  have hafter : ({ s with
      memory := { s.memory with retried := true }
      world := retryWorld s l f } : State).retryWeight = 2 * s.memory.hello.length + 0 :=
    State.retryWeight_of_first hd hfirst
  rw [beginRetry_eq hcur]
  unfold State.weight
  rw [hbefore, hafter]
  show 8 * (retryWorld s l f).outcomesLeft + _ + 16 < _ + 7
  rw [outcomesLeft_retryWorld hcur]
  omega

/-- Going over to the second connection turns what the hello weighs into the pieces to replay. -/
theorem weight_beginReplay (hs : s.Sound) (ht : s.memory.retried = true)
    (hfirst : s.memory.current = firstLink) (hd : s.isDecided = false) {w : World}
    (hr : s.world.dialled secondLink = some (w, .ok secondLink)) (len : Nat) :
    (beginReplay (s.withWorld w) len secondLink).1.weight +
        (beginReplay (s.withWorld w) len secondLink).2.load
          (Call.weight (beginReplay (s.withWorld w) len secondLink).1.isDecided) <
      s.weight + 16 := by
  have hbefore : s.retryWeight = 2 * s.memory.hello.length + 0 := by
    rw [State.retryWeight_of_first hd hfirst, ht]
    rfl
  have hcut := congrArg List.length
    (SplitStrategy.first_append_second_cut s.memory.strategy s.memory.hello.bytes)
  rw [List.length_append] at hcut
  have hafter : (beginReplay (s.withWorld w) len secondLink).1.retryWeight = 0 :=
    if_pos (Or.inr rfl)
  have houtcomes := World.outcomesLeft_dialled (hs.second_pending ht hfirst) hr
  unfold State.weight
  rw [hbefore, hafter]
  show 8 * w.outcomesLeft + _ + ((s.memory.strategy.cut s.memory.hello.bytes).1.first.length + 8 +
    ((s.memory.strategy.cut s.memory.hello.bytes).1.second.length + 2)) < _ + 16
  unfold Hello.length
  omega

/-- An accepted write weighs more than the bytes that it adds to the hello. -/
theorem weight_sends {buf bytes : Bytes} {w : World}
    (hw : s.world.write s.memory.current (.call k) buf = some (w, .ok bytes)) (goal : Goal) :
    (((s.withWorld w).push bytes).setDeadline s.memory.current
        (s.withWorld w).replyDeadline).weight +
        (afterWrite s k buf (.ok bytes) goal).2.load (Call.weight s.isDecided) <
      s.weight + (goal.writeWeight buf + 4) := by
  obtain ⟨l, l', -, hlink, -⟩ := World.write_eq_some hw
  have hle := World.outcomesLeft_write_le hw
  have hpush : (((s.withWorld w).push bytes).setDeadline s.memory.current
      (s.withWorld w).replyDeadline).retryWeight ≤ s.retryWeight + 2 * bytes.length :=
    State.retryWeight_push s bytes
  have hload : (afterWrite s k buf (.ok bytes) goal).2.load (Call.weight s.isDecided) +
      2 * bytes.length < goal.writeWeight buf + 4 :=
    load_afterSending (Link.write_isPrefix hlink) goal
  have hdeadline : (((s.withWorld w).push bytes).setDeadline s.memory.current
      (s.withWorld w).replyDeadline).world.outcomesLeft = w.outcomesLeft :=
    World.outcomesLeft_setDeadline _ _ _
  unfold State.weight
  rw [hdeadline]
  omega

theorem weight_sendFails {buf : Bytes} {w : World} {f : Fault} (hd : s.isDecided = false)
    (hw : s.world.write s.memory.current (.call k) buf = some (w, .error f)) (goal : Goal) :
    (((s.withWorld w).setDeadline s.memory.current (s.withWorld w).replyDeadline).note
        (.writeFailed f)).weight + (goal.writeWeight buf + waiterWeight s.isDecided .arriving) <
      s.weight + (goal.writeWeight buf + 4) := by
  have hle := World.outcomesLeft_write_le hw
  have hdeadline : ((((s.withWorld w).setDeadline s.memory.current
      (s.withWorld w).replyDeadline).note (.writeFailed f)).world.outcomesLeft) =
      w.outcomesLeft := World.outcomesLeft_setDeadline _ _ _
  have hsame : (((s.withWorld w).setDeadline s.memory.current
      (s.withWorld w).replyDeadline).note (.writeFailed f)).retryWeight = s.retryWeight :=
    State.retryWeight_congr rfl rfl rfl rfl
  have hwaiter : waiterWeight s.isDecided .arriving = 3 := by
    rw [hd]
    rfl
  unfold State.weight
  rw [hdeadline, hsame]
  omega

/-- A write on the final connection leaves fewer bytes, or takes an outcome away. -/
theorem weight_sendsTo {link : LinkId} {buf : Bytes} {w : World} {r : Except Fault Bytes}
    (hd : s.finalLink? = some link) (hw : s.world.write link (.call k) buf = some (w, r))
    (goal : Goal) :
    (s.withWorld w).weight + (afterWrite s k buf r goal).2.load (Call.weight s.isDecided) <
      s.weight + goal.writeWeight buf := by
  have hp : ∀ bytes, r = .ok bytes → bytes <+: buf := by
    rintro bytes rfl
    obtain ⟨l, l', -, hlink, -⟩ := World.write_eq_some hw
    exact Link.write_isPrefix hlink
  have hle := World.outcomesLeft_write_le hw
  refine weight_keeps ?_
  rcases load_afterSendingTo (k := k) (d := s.isDecided) hd hp goal with
    hlt | ⟨f, rfl, hf, heq⟩
  · omega
  · have hlt := World.outcomesLeft_interrupted hw hf
    rw [heq]
    omega

/-- A step of a call leaves less to do. -/
theorem Effect.lowers (h : Effect k s c s₁ p) (hs : s.Sound) (hc : c.Phase s) (hr : s.RungOnce)
    (hl : c.Listens) :
    s₁.weight + p.load (Call.weight s₁.isDecided) < s.weight + c.weight s.isDecided := by
  cases h with
  | passes h => exact Nat.add_lt_add_left (h.lowers hr hl) _
  | @asksShut half =>
    have hsame : (s.askShut half).weight = s.weight := by cases half <;> rfl
    rw [hsame]
    exact Nat.add_lt_add_left (Nat.lt_succ_self 3) _
  | @reads link len w r hr' =>
    refine weight_keeps ?_
    rw [World.outcomesLeft_read hr']
    refine Nat.add_lt_add_left ?_ _
    rcases afterReading_cases s k link len r with ⟨-, ha⟩ | ⟨-, -, ha⟩ | ⟨-, -, ha⟩
    · rw [ha]
      exact Nat.le_of_ble_eq_true rfl
    · rw [ha]
      exact Nat.le_of_ble_eq_true rfl
    · rw [ha]
      exact Nat.le_of_ble_eq_true rfl
  | settlesAtEnd | settlesOnFault =>
    exact weight_settles (Nat.le_refl _) _ (Nat.le_of_ble_eq_true rfl)
  | settlesOnBytes =>
    refine weight_settles (Nat.le_of_eq ?_) _ (Nat.le_of_ble_eq_true rfl)
    exact World.outcomesLeft_setDeadline _ _ _
  | @retries link len f _ ht hd => exact weight_beginRetry hs ht hd len f
  | @redials len dial w link hr' =>
    obtain ⟨rfl, ht, hfirst, hd⟩ := hc
    obtain ⟨now, script, rfl, -⟩ := World.dialled_ok hr'
    exact weight_beginReplay hs ht hfirst hd hr' len
  | redialFails hr' =>
    obtain ⟨rfl, ht, hfirst, -⟩ := hc
    have houtcomes := World.outcomesLeft_dialled (hs.second_pending ht hfirst) hr'
    exact weight_settles (Nat.le_of_eq houtcomes) _ (Nat.le_of_ble_eq_true rfl)
  | @replays len cut piece rest w bytes hrest hw hb =>
    have hle := World.outcomesLeft_write_le hw
    have hrest' : 0 < rest.length := List.length_pos_of_ne_nil hrest
    have hbytes : 0 < bytes.length := List.length_pos_of_ne_nil hb
    refine weight_keeps ?_
    show _ + ((rest.drop bytes.length).length + 8 + _) < _ + (rest.length + 8 + _)
    rw [List.length_drop]
    omega
  | replayInterrupted hrest hw hf =>
    have hlt := World.outcomesLeft_interrupted hw hf
    refine weight_keeps (Nat.add_lt_add_right ?_ _)
    omega
  | @replayFails len cut piece rest w r f hrest hw hf =>
    have hle : w.outcomesLeft ≤ s.world.outcomesLeft := World.outcomesLeft_write_le hw
    refine weight_settles hle _ ?_
    show 0 < rest.length + 8 + _
    omega
  | reshutsRead hw =>
    refine weight_keeps ?_
    rw [World.outcomesLeft_shut hw]
    refine Nat.add_lt_add_left ?_ _
    rcases reshutWrite_cases s _ with ⟨-, ha⟩ | ⟨-, ha⟩
    · rw [ha]
      exact Nat.lt_succ_self 3
    · rw [ha]
      exact Nat.le_of_ble_eq_true rfl
  | reshutsWrite hw =>
    refine weight_keeps ?_
    rw [World.outcomesLeft_shut hw]
    exact Nat.add_lt_add_left (Nat.lt_succ_self 2) _
  | @reshutFails len half w f hw =>
    refine weight_settles (Nat.le_of_eq (World.outcomesLeft_shut hw)) _ ?_
    cases half <;> exact Nat.le_of_ble_eq_true rfl
  | answers hr' =>
    exact weight_settles (Nat.le_of_eq (World.outcomesLeft_read hr')) _ (Nat.le_of_ble_eq_true rfl)
  | @sends goal buf w bytes hw => exact weight_sends hw goal
  | @sendFails goal buf w f hw => exact weight_sendFails hc hw goal
  | @sendsTo link goal buf w r hw => exact weight_sendsTo hc hw goal
  | shuts hw =>
    refine weight_keeps ?_
    rw [World.outcomesLeft_shut hw]
    exact Nat.lt_succ_self _
  | @bare link call w p' hw =>
    have heff := BareCall.effect_of_step hw
    have hlowers := heff.lowers
    have hle := heff.outcomesLeft_le
    have hload : (bareProgress link p').load (Call.weight s.isDecided) = p'.load BareCall.work := by
      cases p' <;> rfl
    refine weight_keeps ?_
    show _ + (bareProgress link p').load (Call.weight s.isDecided) < _ + call.work
    rw [hload]
    omega

theorem Effect.isDecided (h : Effect k s c s₁ p) (hc : c.Phase s) (hd : s.isDecided = true) :
    s₁.isDecided = true :=
  (h.settled hd (hc.not_provisional hd)).isDecided.trans hd

end Weights

end Stream

/-! ## The scheduler -/

namespace StreamSession

open Redial.Stream

variable {rule : Rule} {setup : Setup} {m : Moment}

/-- What is left to do for all calls. -/
def rank (machine : StreamMachine) : Nat :=
  machine.env.weight + Machine.load (Call.weight machine.env.isDecided) machine.tasks

/-- Calls on a stream run until they are blocked or done. -/
theorem ranked (rule : Rule) (setup : Setup) (actions : List Session.Action) :
    Machine.Ranked Stream.behaviour (fun machine => Reachable rule setup ⟨actions, machine⟩)
      rank where
  stays h hk := h.leads (.single (.step hk))
  lowers := by
    intro machine machine' k h hk
    obtain ⟨c, s, p, hc, hstep, rfl⟩ := Machine.step_eq_some hk
    obtain ⟨s₁, l, he, -, rfl⟩ := does_of_step hstep
    obtain ⟨hrung, hlistens⟩ := inductive_listens.holds h
    have hlowers := he.lowers h.sound (h.phase hc) hrung (hlistens k c hc)
    have hload := Machine.load_advance (Call.weight s₁.isDecided) h.numbered.nodup hc
      (s₁.withLock l) p
    -- The other calls have no more to do if the question has been settled.
    have hothers := Machine.load_le_of_mem (Call.weight_mono (he.isDecided (h.phase hc))) hc
    unfold rank
    rw [Machine.env_advance]
    show s₁.weight + Machine.load (Call.weight s₁.isDecided) (machine.advance k _ _).tasks < _
    dsimp only at hlowers hload hothers ⊢
    omega

theorem rank_le (machine : StreamMachine) :
    rank machine ≤ Stream.behaviour.effort machine.env (machine.tasks.map (·.call)) := by
  have heffort : Stream.behaviour.effort machine.env (machine.tasks.map (·.call)) =
      Machine.load Call.work machine.tasks +
        (8 * machine.env.world.outcomesLeft + 2 * machine.env.memory.hello.length + 32) :=
    Machine.foldr_weights Call.work _ _
  have hretry := machine.env.retryWeight_le
  have hload := Machine.load_le (Call.weight_le machine.env.isDecided) machine.tasks
  rw [heffort]
  unfold rank State.weight
  omega

/-- After a step of a session every unfinished call is blocked: the scheduler has enough fuel. -/
theorem Reachable.quiet_next (h : Reachable rule setup m) {action : Session.Action}
    (hallowed : rule m action) : (m.next action).Quiet :=
  (ranked rule setup (m.actions ++ [action])).quiet_settle
    (h.leads (.single (.act action hallowed))) (rank_le _)

end StreamSession

end Redial
