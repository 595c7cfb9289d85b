import Redial.Proofs.Stream.Kinds
import Redial.Proofs.Wire.Flags

/-!
# Shut halves of the connections of a stream

A half of the connection in use is shut for a caller, or once more for the retry; the retry also
closes the first connection. Nothing else changes a flag of a connection (`Effect.flags`). A half is
shut only if it was asked to be shut, and a retry that comes past a half has shut it on the second
connection if it was shut on the first one (`Reachable.recorded`, `Reachable.recovered`).
-/

namespace Redial

/-- Whether a request to shut a half was granted. -/
def Outcome.grantsShut : Outcome → Bool
  | shut (.ok _) => true
  | _ => false

namespace Stream

/-- Whether a call is about to shut a half, or waits to do so. -/
def Call.asksFor (half : Half) : Call → Bool
  | queued (.shut h) => h = half
  | shutting h => h = half
  | reshutting _ h => h = half
  | _ => false

/-- Whether a call is a read whose retry has come past a half: it has shut the half on the second
connection, if that was asked for. -/
def Call.hasPassed : Half → Call → Bool
  | .read, reshutting _ .write => true
  | _, answering _ => true
  | _, _ => false

/-- A half that is shut on the first connection is shut on the second one. -/
def State.Recovered (s : State) (half : Half) : Prop :=
  s.world.isShut firstLink half = true → s.world.isShut secondLink half = true

/-- What holds of the flags of the connections. -/
structure State.Recorded (s : State) : Prop where
  asked : ∀ i half, s.world.isShut i half = true → s.askedShut half = true
  spared : s.world.isClosed secondLink = false

/-- What holds of the shared state while a call is at its place. -/
structure Call.Records (s : State) (c : Call) : Prop where
  asked : ∀ half, c.asksFor half = true → s.askedShut half = true
  passed : ∀ half, c.hasPassed half = true → s.Recovered half

/-- What a step of a call does to the flags of the connections. -/
inductive State.Flags (s : State) : Call → World → Progress Call Outcome → Prop where
  /-- All flags stay. -/
  | stays {c w p} (hw : s.world.SameFlags w) : Flags s c w p
  /-- A half is shut for a caller. -/
  | grants {half w} (hw : s.world.Shuts s.memory.current half w) :
      Flags s (.shutting half) w (.done (.shut (.ok ())))
  /-- A half is shut once more for the retry. -/
  | regrants {len half w c'} (hw : s.world.Shuts s.memory.current half w)
      (hc : c'.hasPassed half = true) : Flags s (.reshutting len half) w (.goesOn c')
  /-- The retry closes the first connection. -/
  | closes {c w p} (hw : s.world.Closes firstLink w) (hcur : s.memory.current = firstLink) :
      Flags s c w p

section Steps

variable {k j : TaskId} {s s₁ : State} {c c' d : Call} {p : Progress Call Outcome} {half : Half}
  {i : LinkId}

theorem Call.renews_of_hasPassed (h : c.hasPassed half = true) : c.renews = true := by
  cases c with
  | reshutting | answering => rfl
  | _ => cases half <;> cases h

/-! ## Flags after a step -/

theorem closes_retryWorld {l : Link} (hl : s.world.link? s.memory.current = some l)
    (cause : Fault) : s.world.Closes s.memory.current (retryWorld s l cause) := by
  have hflag : ∀ f j, (retryWorld s l cause).flag f j =
      if j = s.memory.current then f l.close.1 else s.world.flag f j := by
    intro f j
    unfold World.flag
    rw [link?_retryWorld]
    exact World.flag_setLink (World.lt_of_link?_eq_some hl) _ f j
  refine ⟨fun j half => ?_, fun j hj => ?_, fun j hj => ?_⟩
  · unfold World.isShut
    rw [hflag]
    split
    · rename_i hcur
      rw [hcur, World.flag_of_link? hl]
      exact Link.isShut_close l half
    · rfl
  · unfold World.isClosed at hj ⊢
    rw [hflag]
    split
    · rename_i hcur
      rw [hcur, World.flag_of_link? hl] at hj
      exact Link.closed_close hj
    · exact hj
  · unfold World.isClosed
    rw [hflag, if_neg hj]

/-- While the first connection is in use there is no second one, so its dial sets no flag. -/
theorem sameFlags_dialled (hs : s.Sound) (hcur : s.memory.current = firstLink) {w : World}
    {r : Except Fault LinkId} (hr : s.world.dialled secondLink = some (w, r)) :
    s.world.SameFlags w := .dialled hr (hs.second_eq_none hcur)

theorem Effect.flags (h : Effect k s c s₁ p) (hs : s.Sound) (hc : c.Phase s) :
    s.Flags c s₁.world p := by
  have hrefl := World.SameFlags.refl s.world
  cases h with
  | passes => exact .stays hrefl
  | @asksShut half => cases half <;> exact .stays hrefl
  | reads hr => exact .stays (.read hr)
  | settlesAtEnd => exact .stays (hrefl.note _)
  | @settlesOnBytes link =>
    have hset := World.SameFlags.setDeadline s.world link none
    exact .stays (hset.note _)
  | settlesOnFault => exact .stays ((hrefl.note _).note _)
  | retries _ ht =>
    obtain ⟨l, hl⟩ := hs.current_isSome
    have hcur := hs.current_eq_first ht
    have hcloses := closes_retryWorld hl
    rw [hcur] at hcloses
    rw [beginRetry_eq hl]
    exact .closes (hcloses _) hcur
  | redials hr =>
    obtain ⟨rfl, -, hcur, -⟩ := hc
    exact .stays ((sameFlags_dialled hs hcur hr).note _)
  | redialFails hr =>
    obtain ⟨rfl, -, hcur, -⟩ := hc
    exact .stays (((sameFlags_dialled hs hcur hr).note _).note _)
  | replays _ hw | replayInterrupted _ hw | sendsTo hw => exact .stays (.write hw)
  | replayFails _ hw =>
    have hwrite := World.SameFlags.write hw
    exact .stays ((hwrite.note _).note _)
  | @reshutsRead len w hw =>
    have hshuts := World.shuts_of_granted hw
    rcases reshutWrite_cases s len with ⟨-, ha⟩ | ⟨-, ha⟩
    · rw [ha]
      exact .regrants hshuts rfl
    · rw [ha]
      exact .regrants hshuts rfl
  | reshutsWrite hw => exact .regrants (World.shuts_of_granted hw) rfl
  | reshutFails hw =>
    have hrefused := World.SameFlags.refused hw
    exact .stays (hrefused.note _)
  | answers hr =>
    have hread := World.SameFlags.read hr
    exact .stays (hread.note _)
  | sends hw =>
    have hwrite := World.SameFlags.write hw
    exact .stays (hwrite.trans (.setDeadline _ _ _))
  | sendFails hw =>
    have hwrite := World.SameFlags.write hw
    exact .stays ((hwrite.trans (.setDeadline _ _ _)).note _)
  | @shuts half w r hw =>
    cases r with
    | none => exact .grants (World.shuts_of_granted hw)
    | some f => exact .stays (.refused hw)
  | bare hw =>
    cases BareCall.effect_of_step hw with
    | reads hr => exact .stays (.read hr)
    | copies _ hin => exact .stays (.write hin)
    | writes | writesAll | shuts => cases hc.2
    | _ => exact .stays hrefl

/-! ## What flags keep to -/

/-- No flag is taken back, and only halves of the connection in use are shut. -/
theorem State.Flags.sets {w : World} (h : s.Flags c w p) :
    s.world.Sets s.memory.current w := by
  cases h with
  | stays hw => exact hw.sets _
  | grants hw | regrants hw => exact hw.sets
  | closes hw => exact hw.sets

theorem askedShut_askShut (s : State) (half half' : Half) :
    (s.askShut half).askedShut half' = (s.askedShut half' || half' = half) := by
  cases half <;> cases half' <;> simp [State.askShut, State.askedShut]

theorem Effect.askedShut_mono (h : Effect k s c s₁ p) (hs : s.Sound)
    (ha : s.askedShut half = true) : s₁.askedShut half = true := by
  cases h with
  | asksShut => rw [askedShut_askShut, ha, Bool.true_or]
  | retries =>
    obtain ⟨l, hl⟩ := hs.current_isSome
    rw [beginRetry_eq hl]
    cases half <;> exact ha
  | _ => cases half <;> exact ha

theorem State.Recorded.congr (h : s.Recorded) (hw : s.world.SameFlags s₁.world)
    (ha : ∀ half, s.askedShut half = true → s₁.askedShut half = true) : s₁.Recorded := by
  refine ⟨fun i half hi => ?_, ?_⟩
  · rw [hw.isShut] at hi
    exact ha half (h.asked i half hi)
  · rw [hw.isClosed]
    exact h.spared

theorem Call.Records.congr (h : c.Records s) (hw : s.world.SameFlags s₁.world)
    (ha : ∀ half, s.askedShut half = true → s₁.askedShut half = true) : c.Records s₁ := by
  refine ⟨fun half hc => ha half (h.asked half hc), fun half hc => ?_⟩
  unfold State.Recovered
  rw [hw.isShut, hw.isShut]
  exact h.passed half hc

/-- A half is shut only if it was asked to be shut. -/
theorem Effect.recorded (h : Effect k s c s₁ p) (hs : s.Sound) (hc : c.Phase s)
    (hr : s.Recorded) (hcall : c.Records s) : s₁.Recorded := by
  have hmono : ∀ half, s.askedShut half = true → s₁.askedShut half = true :=
    fun half => h.askedShut_mono hs
  -- In both ways to shut a half, the call is about to shut it.
  have hshuts : ∀ half, c.asksFor half = true → s.world.Shuts s.memory.current half s₁.world →
      s₁.Recorded := by
    intro half hhalf hw
    refine ⟨fun i half' hi => ?_, ?_⟩
    · rw [hw.isShut, Bool.or_eq_true] at hi
      rcases hi with hi | hi
      · exact hmono half' (hr.asked i half' hi)
      · simp only [Bool.and_eq_true, decide_eq_true_eq] at hi
        rw [hi.2]
        exact hmono half (hcall.asked half hhalf)
    · rw [hw.isClosed]
      exact hr.spared
  cases h.flags hs hc with
  | stays hw => exact hr.congr hw hmono
  | grants hw => exact hshuts _ (decide_eq_true rfl) hw
  | regrants hw => exact hshuts _ (decide_eq_true rfl) hw
  | closes hw hcur =>
    refine ⟨fun i half hi => ?_, ?_⟩
    · rw [hw.isShut] at hi
      exact hmono half (hr.asked i half hi)
    · rw [hw.others _ (by decide)]
      exact hr.spared

/-! ## What the retry does for a half -/

theorem Renewal.asksFor (h : Renewal k s c s₁ c') (hc : c'.asksFor half = true) :
    s₁.askedShut half = true := by
  have hnext : ∀ {len}, WriteHalfNext s len c' → s.askedShut half = true := by
    intro len hn
    cases hn with
    | asked hasked =>
      have hhalf : Half.write = half := of_decide_eq_true hc
      rw [← hhalf]
      exact hasked
    | notAsked => cases hc
  cases h with
  | toReadHalf hasked =>
    have hhalf : Half.read = half := of_decide_eq_true hc
    rw [← hhalf]
    exact hasked
  | toWriteHalf _ hn => exact hnext hn
  | reshutsRead _ hn => cases half <;> exact hnext hn
  | _ => cases hc

/-- A call is about to shut a half only if that was asked for. -/
theorem Effect.asksFor (h : Effect k s c s₁ p) (hs : s.Sound) (hc : c.Phase s)
    (hcall : c.Records s) (hp : p = .goesOn c') (hc' : c'.asksFor half = true) :
    s₁.askedShut half = true := by
  cases hr : c'.renews with
  | true => exact (h.renewal hp hr).asksFor hc'
  | false =>
    -- The call is a request to shut the half, and was one before.
    have hkind : c'.kind = .shut half := by
      cases c' with
      | queued errand =>
        cases errand with
        | shut h => exact congrArg Kind.shut (of_decide_eq_true hc')
        | _ => cases hc'
      | shutting h => exact congrArg Kind.shut (of_decide_eq_true hc')
      | reshutting => cases hr
      | _ => cases hc'
    rw [h.kind hp] at hkind
    cases c with
    | start request =>
      cases request with
      | shut h' =>
        cases hkind
        cases h with
        | passes h => cases h
        | asksShut =>
          rw [askedShut_askShut]
          simp
      | _ => cases hkind
    | queued errand =>
      cases errand with
      | shut h' =>
        cases hkind
        exact h.askedShut_mono hs (hcall.asked half (decide_eq_true rfl))
      | _ => cases hkind
    | shutting h' =>
      cases h with
      | passes h => cases h
      | shuts => cases hp
    | bare link call =>
      cases call with
      | shut h' => cases hc.2
      | _ => cases hkind
    | _ => cases hkind

theorem State.Recorded.recovered (h : s.Recorded) (ha : s.askedShut half = false) :
    s.Recovered half := by
  intro hfirst
  rw [h.asked firstLink half hfirst] at ha
  cases ha

theorem State.recovered_of_shuts (hw : s.world.Shuts secondLink half s₁.world) :
    s₁.Recovered half := by
  intro _
  rw [hw.isShut]
  simp

/-- The retry comes past a half that was not asked to be shut, or after it has shut it once more. -/
theorem Renewal.passed (h : Renewal k s c s₁ c') (hr : s.Recorded) (hc : c.Phase s)
    (hcall : c.Records s) (hc' : c'.hasPassed half = true) : s₁.Recovered half := by
  have hshut : ∀ {half w}, s.memory.current = secondLink →
      s.world.shut s.memory.current half = some (w, none) →
      s.world.Shuts secondLink half w := by
    intro half w hcur hw
    rw [hcur] at hw
    exact World.shuts_of_granted hw
  cases h with
  | toReadHalf => cases half <;> cases hc'
  | toWriteHalf hread hn =>
    cases half with
    | read => exact hr.recovered hread
    | write =>
      cases hn with
      | asked => cases hc'
      | notAsked hwrite => exact hr.recovered hwrite
  | @reshutsRead len w _ hw hn =>
    have hw := hshut hc.1 hw
    cases half with
    | read => exact State.recovered_of_shuts hw
    | write =>
      cases hn with
      | asked => cases hc'
      | notAsked hwrite =>
        intro hfirst
        have hbefore := hw.isShut firstLink .write
        rw [show w.isShut firstLink .write = true from hfirst] at hbefore
        have hold : s.world.isShut firstLink .write = true := by simpa using hbefore.symm
        rw [hr.asked firstLink .write hold] at hwrite
        cases hwrite
  | @reshutsWrite len w hw =>
    have hw := hshut hc.1 hw
    cases half with
    | write => exact State.recovered_of_shuts hw
    | read =>
      intro hfirst
      have hbefore := hw.isShut firstLink .read
      rw [show w.isShut firstLink .read = true from hfirst] at hbefore
      have hold : s.world.isShut firstLink .read = true := by simpa using hbefore.symm
      have hsecond := hcall.passed .read rfl hold
      show w.isShut secondLink .read = true
      rw [hw.isShut, hsecond, Bool.true_or]
  | _ => cases half <;> cases hc'

end Steps

end Stream

namespace StreamSession

open Redial.Stream

variable {rule : Rule} {setup : Setup} {m m' : Moment} {half : Half}

theorem recorded_of_opening {s : State} (h : setup.opening = .opened s) : s.Recorded := by
  obtain ⟨now, script, timeout, -, -, hl, -⟩ := opening_eq_opened h
  have hflag : ∀ f i, f (.ofScript script) = false → s.world.flag f i = false := by
    intro f i hf
    unfold World.flag World.link?
    rw [hl]
    cases i with
    | zero => exact hf
    | succ i => rfl
  refine ⟨fun i half hi => ?_, hflag _ _ rfl⟩
  unfold World.isShut at hi
  rw [hflag _ _ (by cases half <;> rfl)] at hi
  cases hi

theorem sameFlags_change (w : World) (action : Session.Action) :
    w.SameFlags (action.change w) := by
  cases action with
  | feed link more => exact .feed w link more
  | _ => exact .of_links rfl

theorem inductive_records :
    Inductive rule setup State.Recorded fun _ s c => c.Records s where
  opened s hs := recorded_of_opening hs
  started k s request := by
    refine ⟨fun half hc => ?_, fun half hc => ?_⟩
    · cases hc
    · cases half <;> cases hc
  changes s action hr := by
    have hw := sameFlags_change s.world action
    have hasked : ∀ half, s.askedShut half = true →
        (s.withWorld (action.change s.world)).askedShut half = true := by
      intro half ha
      cases half <;> exact ha
    exact ⟨hr.congr hw hasked, fun k c hc => hc.congr hw hasked⟩
  locks s l hr := by
    have hasked : ∀ half, s.askedShut half = true → (s.withLock l).askedShut half = true := by
      intro half ha
      cases half <;> exact ha
    exact ⟨hr.congr (.refl _) hasked, fun k c hc => hc.congr (.refl _) hasked⟩
  steps m k c s₁ p hm hk hr hc he := by
    have hphase := hm.phase hk
    refine ⟨he.recorded hm.sound hphase hr hc, fun c' hp => ⟨fun half hc' => ?_,
      fun half hc' => ?_⟩⟩
    · exact he.asksFor hm.sound hphase hc hp hc'
    · have hrenewal := he.renewal hp (Call.renews_of_hasPassed hc')
      exact hrenewal.passed hr hphase hc hc'
  others m k c s₁ p j d hm hk hj hjk hr hc he hd := by
    refine ⟨fun half hd' => he.askedShut_mono hm.sound (hd.asked half hd'), fun half hd' => ?_⟩
    -- The reader has the lock, so the other call leaves the flags as they are.
    have hrenews := Call.renews_of_hasPassed hd'
    have hplace := (hm.phase hj).of_renews hrenews
    have hholder := hm.holder hj (Call.holds_of_renews hrenews)
    have hw : m.state.world.SameFlags s₁.world := by
      rcases he.aside (hm.phase hk) hplace.2 (hm.holder hk) hholder hjk with
        rfl | ⟨half', rfl⟩ | ⟨link, len, w, r, -, hread, rfl⟩
      · exact .refl _
      · cases half' <;> exact .refl _
      · exact .read hread
    exact (hd.congr hw fun half => he.askedShut_mono hm.sound).passed half hd'

/-- At every reachable moment the flags are as they were asked for, and the second connection is
not closed. -/
theorem Reachable.recorded (h : Reachable rule setup m) : m.state.Recorded :=
  (inductive_records.holds h).1

/-- At every reachable moment a retry that has come past a half has brought it over. -/
theorem Reachable.recovered (h : Reachable rule setup m) {k : TaskId} {c : Call}
    (ht : ⟨k, c⟩ ∈ m.machine.tasks) (hc : c.hasPassed half = true) : m.state.Recovered half :=
  ((inductive_records.holds h).2 k c ht).passed half hc

end StreamSession

end Redial
