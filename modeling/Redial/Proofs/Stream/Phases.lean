import Redial.Proofs.Stream.Invariants

/-!
# Phases of a stream

A stream starts on its first connection. At most one retry is made, and if its dial succeeds the
stream goes over to the second connection and stays there. `State.Sound` says so of what the calls
share, and `Call.Phase` of the place of a single call: the lock keeps a call at a provisional place
from seeing the question settled or the connection replaced under it. Both hold at every reachable
moment (`Reachable.sound`, `Reachable.phase`).
-/

namespace Redial

/-- Whether a call on a connection is one that a stream makes on its final connection. -/
def BareCall.isOfStream : BareCall → Bool
  | read _ => true
  | copy .. => true
  | _ => false

theorem BareCall.Effect.isOfStream {task : TaskId} {i : LinkId} {w w' : World}
    {call call' : BareCall} (h : BareCall.Effect task i w call w' (.goesOn call'))
    (hc : call.isOfStream = true) : call'.isOfStream = true := by
  generalize hp : Progress.goesOn (ω := Outcome) call' = p at h
  cases h with
  | writesAll => cases hc
  | pulls | pullInterrupted =>
    cases hp
    rfl
  | copies =>
    unfold BareCall.afterWrite at hp
    split at hp
    · cases hp
    · cases hp
      rfl
    · split at hp
      · cases hp
        rfl
      · cases hp
  | _ => cases hp

/-- A call of a stream on its final connection ends as a read or as a copy. -/
theorem BareCall.Effect.done {task : TaskId} {i : LinkId} {w w' : World} {call : BareCall}
    {o : Outcome} (h : BareCall.Effect task i w call w' (.done o)) (hc : call.isOfStream = true) :
    (∃ len r, w.read i task len = some (w', r) ∧ o = .read r) ∨ ∃ r left, o = .copied r left := by
  generalize hp : Progress.done (κ := BareCall) o = p at h
  cases h with
  | reads hr =>
    cases hp
    exact Or.inl ⟨_, _, hr, rfl⟩
  | pullsEnd | pullFault =>
    cases hp
    exact Or.inr ⟨_, _, rfl⟩
  | copies =>
    unfold BareCall.afterWrite at hp
    split at hp
    · cases hp
      exact Or.inr ⟨_, _, rfl⟩
    · cases hp
    · split at hp
      · cases hp
      · cases hp
        exact Or.inr ⟨_, _, rfl⟩
  | pulls | pullInterrupted => cases hp
  | _ => cases hc

namespace Stream

/-- The connection that a stream is opened with. -/
abbrev firstLink : LinkId := 0

/-- The connection that a retry makes. -/
abbrev secondLink : LinkId := 1

/-- What holds of the shared state in every phase. -/
structure State.Sound (s : State) : Prop where
  /-- There is one dial call for the opening and one for the retry. -/
  dials : s.world.links.length = if s.memory.retried then 2 else 1
  first : (s.world.link? firstLink).isSome = true
  current : s.memory.current = firstLink ∨
    (s.memory.current = secondLink ∧ s.memory.retried = true)
  /-- The stream goes over to the second connection at once. -/
  second : (s.world.link? secondLink).isSome = true ↔ s.memory.current = secondLink
  /-- The question is settled on the connection in use. -/
  final : ∀ link, s.finalLink? = some link → link = s.memory.current

/-- What holds of the shared state while a call is at a place. -/
def Call.Phase (s : State) : Call → Prop
  | reading link _ => link = firstLink ∨ link = s.memory.current
  | queued (.judge link _ _) => link = firstLink ∨ link = s.memory.current
  | redialling _ dial => dial = secondLink ∧ s.memory.retried = true ∧
      s.memory.current = firstLink ∧ s.isDecided = false
  | replaying .. => s.memory.current = secondLink ∧ s.isDecided = false
  | reshutting .. => s.memory.current = secondLink ∧ s.isDecided = false
  | answering _ => s.memory.current = secondLink ∧ s.isDecided = false
  | sending .. => s.isDecided = false
  | sendingTo link _ _ => s.finalLink? = some link
  | bare link call => s.finalLink? = some link ∧ call.isOfStream = true
  | _ => True

namespace State

variable {s s' : State}

theorem isDecided_iff : s.isDecided = true ↔ ∃ link, s.finalLink? = some link := by
  unfold isDecided finalLink? Latch.isSet
  cases s.memory.decision.value with
  | none => simp
  | some d => simp

theorem isDecided_eq_false_iff : s.isDecided = false ↔ s.finalLink? = none := by
  unfold isDecided finalLink? Latch.isSet
  cases s.memory.decision.value with
  | none => simp
  | some d => simp

theorem finalLink_of_some {link : LinkId} (h : s.finalLink? = some link) : s.finalLink = link := by
  unfold finalLink
  rw [h]
  rfl

theorem value_eq_none (hd : s.isDecided = false) : s.memory.decision.value = none := by
  unfold isDecided Latch.isSet at hd
  simpa using hd

theorem finalLink?_settle (hd : s.isDecided = false) :
    s.settle.finalLink? = some s.memory.current := by
  unfold settle State.note withWorld finalLink? Latch.set
  dsimp only
  rw [value_eq_none hd]
  rfl

theorem isDecided_settle : s.settle.isDecided = true := Latch.isSet_set _ _

/-- The account of what happened before is made when the question is settled. -/
theorem stats?_settle (hd : s.isDecided = false) : s.settle.stats? = some s.statsNow := by
  unfold settle State.note withWorld stats? Latch.set
  dsimp only
  rw [value_eq_none hd]
  rfl

/-! ## Soundness is kept -/

theorem Sound.of_same (h : s.Sound) (hg : s.SameGuarded s') (hw : s.world.SameLinks s'.world) :
    s'.Sound := by
  refine ⟨?_, ?_, ?_, ?_, ?_⟩
  · rw [hw.length, hg.retried]
    exact h.dials
  · rw [hw.isSome]
    exact h.first
  · rw [hg.current, hg.retried]
    exact h.current
  · rw [hw.isSome, hg.current]
    exact h.second
  · rw [hg.finalLink?, hg.current]
    exact h.final

theorem Sound.settle (h : s.Sound) (hd : s.isDecided = false) : s.settle.Sound := by
  refine ⟨h.dials, h.first, h.current, h.second, fun link hl => ?_⟩
  rw [finalLink?_settle hd] at hl
  exact (Option.some.inj hl).symm

theorem Sound.withWorld (h : s.Sound) {w : World} (hw : s.world.SameLinks w) :
    (s.withWorld w).Sound := h.of_same (.withWorld s w) hw

theorem Sound.note (h : s.Sound) (n : Notice) : (s.note n).Sound := h.withWorld (.note _ n)

theorem Sound.setDeadline (h : s.Sound) (i : LinkId) (deadline : Option Instant) :
    (s.setDeadline i deadline).Sound := h.withWorld (.setDeadline _ i deadline)

theorem Sound.current_isSome (h : s.Sound) :
    ∃ l, s.world.link? s.memory.current = some l := by
  rw [← Option.isSome_iff_exists]
  rcases h.current with hc | ⟨hc, -⟩
  · rw [hc]
    exact h.first
  · rw [hc]
    exact h.second.mpr hc

/-- Only a retry replaces the first connection. -/
theorem Sound.current_eq_first (h : s.Sound) (ht : s.memory.retried = false) :
    s.memory.current = firstLink := by
  rcases h.current with hc | ⟨-, hr⟩
  · exact hc
  · rw [ht] at hr
    cases hr

theorem Sound.second_eq_none (h : s.Sound) (hc : s.memory.current = firstLink) :
    s.world.link? secondLink = none := by
  rw [← Option.not_isSome_iff_eq_none, h.second, hc]
  decide

theorem Sound.finalLink?_eq (h : s.Sound) (hd : s.isDecided = true) :
    s.finalLink? = some s.memory.current := by
  obtain ⟨link, hl⟩ := isDecided_iff.mp hd
  rw [hl, h.final link hl]

end State

/-! ## The start of a retry -/

/-- The entries of a request to close a connection that is given up. -/
def closingEntries (now : Instant) (link : LinkId) : ShutAnswer → Journal
  | none => [⟨now, .closed link none⟩]
  | some f => [⟨now, .noticed (.closeFailed f)⟩, ⟨now, .closed link (some f)⟩]

/-- The entries of the start of a retry. -/
def retryEntries (s : State) (l : Link) (cause : Fault) : Journal :=
  ⟨s.world.now, .dialling s.terms.destination⟩ ::
    (closingEntries s.world.now s.memory.current l.close.2 ++
      [⟨s.world.now, .noticed (.retrying s.terms.destination s.memory.hello.length cause)⟩])

/-- The world after a retry has been started. -/
def retryWorld (s : State) (l : Link) (cause : Fault) : World :=
  { s.world with
    links := (s.world.setLink s.memory.current l.close.1).links ++ [none]
    journal := retryEntries s l cause ++ s.world.journal }

theorem beginRetry_eq {s : State} {l : Link} (hl : s.world.link? s.memory.current = some l)
    (len : Nat) (cause : Fault) :
    beginRetry s len cause =
      ({ s with
          memory := { s.memory with retried := true }
          world := retryWorld s l cause },
        .goesOn (.redialling len s.world.links.length)) := by
  have hl' : (s.world.note (.retrying s.terms.destination s.memory.hello.length cause)).link?
      s.memory.current = some l := hl
  unfold beginRetry retryWorld State.note State.withWorld
  dsimp only
  rw [World.close_of_link? hl']
  dsimp only
  cases hr : l.close.2 with
  | none =>
    simp [World.dial, World.enter, World.note, World.setLink, retryEntries, closingEntries, hr]
  | some f =>
    simp [World.dial, World.enter, World.note, World.setLink, retryEntries, closingEntries, hr]

theorem length_links_retryWorld (s : State) (l : Link) (cause : Fault) :
    (retryWorld s l cause).links.length = s.world.links.length + 1 := by
  unfold retryWorld
  simp

theorem link?_retryWorld (s : State) (l : Link) (cause : Fault) (i : LinkId) :
    (retryWorld s l cause).link? i = (s.world.setLink s.memory.current l.close.1).link? i := by
  unfold retryWorld World.link?
  dsimp only
  rw [List.getElem?_append]
  split
  · rfl
  · rename_i hi
    rw [List.getElem?_eq_none (Nat.le_of_not_lt hi)]
    cases i - (s.world.setLink s.memory.current l.close.1).links.length with
    | zero => rfl
    | succ n => rfl

theorem isSome_link?_retryWorld {s : State} {l : Link}
    (hl : s.world.link? s.memory.current = some l) (cause : Fault) (i : LinkId) :
    ((retryWorld s l cause).link? i).isSome = (s.world.link? i).isSome := by
  rw [link?_retryWorld, World.isSome_link?_setLink hl]

theorem enters_retryWorld {P : Event → Prop} (s : State) (l : Link) (cause : Fault)
    (hr : ∀ n, P (.noticed (.retrying s.terms.destination n cause)))
    (hc : P (.closed s.memory.current l.close.2)) (hf : ∀ f, P (.noticed (.closeFailed f)))
    (hd : P (.dialling s.terms.destination)) :
    s.world.Enters P (retryWorld s l cause) := by
  refine ⟨retryEntries s l cause, rfl, fun e he => ?_⟩
  unfold retryEntries closingEntries at he
  cases hl : l.close.2 with
  | none =>
    rw [hl] at he hc
    simp only [List.mem_cons, List.mem_append, List.not_mem_nil, or_false] at he
    rcases he with rfl | rfl | rfl
    · exact hd
    · exact hc
    · exact hr _
  | some f =>
    rw [hl] at he hc
    simp only [List.mem_cons, List.mem_append, List.not_mem_nil, or_false] at he
    rcases he with rfl | (rfl | rfl) | rfl
    · exact hd
    · exact hf f
    · exact hc
    · exact hr _

/-! ## Phases are kept -/

section Steps

variable {k j : TaskId} {s s₁ : State} {c d : Call} {p : Progress Call Outcome}

theorem Call.Phase.congr (h : c.Phase s) (hg : s.SameGuarded s₁) : c.Phase s₁ := by
  unfold Call.Phase at h ⊢
  rw [hg.current, hg.retried, hg.isDecided, hg.finalLink?]
  exact h

/-- A call leaves its provisional places before the question is settled. -/
theorem Call.Phase.not_provisional (h : c.Phase s) (hd : s.isDecided = true) :
    c.isProvisional = false := by
  have hopen : s.isDecided ≠ false := by
    rw [hd]
    decide
  cases c with
  | redialling => exact absurd h.2.2.2 hopen
  | replaying | reshutting | answering => exact absurd h.2 hopen
  | sending => exact absurd h hopen
  | _ => rfl

theorem Resumes.phase (h : Resumes s c) (hf : s₁.finalLink? = s.finalLink?) : c.Phase s₁ := by
  cases h with
  | final hd => exact hf.trans hd
  | asks | looks => trivial

/-- The connection in use is replaced only by a retry on the first one. -/
theorem Effect.current (h : Effect k s c s₁ p) (hs : s.Sound) (hc : c.Phase s) :
    s₁.memory.current = s.memory.current ∨
      (s.memory.current = firstLink ∧ s₁.memory.current = secondLink) := by
  cases h with
  | asksShut => exact Or.inl (State.SameGuarded.askShut s _).current
  | retries =>
    obtain ⟨l, hl⟩ := hs.current_isSome
    rw [beginRetry_eq hl]
    exact Or.inl rfl
  | redials hr =>
    obtain ⟨now, script, hlink, -⟩ := World.dialled_ok hr
    exact Or.inr ⟨hc.2.2.1, hlink.trans hc.1⟩
  | _ => exact Or.inl rfl

theorem Effect.sound (h : Effect k s c s₁ p) (hs : s.Sound) (hc : c.Phase s) : s₁.Sound := by
  cases h with
  | passes => exact hs
  | @asksShut half =>
    refine hs.of_same (.askShut s half) ?_
    cases half <;> exact .refl _
  | reads hr => exact hs.withWorld (.read hr)
  | settlesAtEnd _ _ hd => exact hs.settle hd
  | settlesOnBytes _ hd => exact (hs.setDeadline _ _).settle hd
  | settlesOnFault _ _ hd => exact (hs.note _).settle hd
  | @retries link len f _ ht hd =>
    obtain ⟨l, hl⟩ := hs.current_isSome
    rw [beginRetry_eq hl]
    refine ⟨?_, ?_, Or.inl (hs.current_eq_first ht), ?_, hs.final⟩
    · show (retryWorld s l f).links.length = 2
      rw [length_links_retryWorld, hs.dials, ht]
      rfl
    · show ((retryWorld s l f).link? firstLink).isSome = true
      rw [isSome_link?_retryWorld hl]
      exact hs.first
    · show ((retryWorld s l f).link? secondLink).isSome = true ↔ _
      rw [isSome_link?_retryWorld hl]
      exact hs.second
  | @redials len dial w link hr =>
    obtain ⟨rfl, ht, hcur, hd⟩ := hc
    obtain ⟨now, script, rfl, rfl⟩ := World.dialled_ok hr
    have hlen : s.world.links.length = 2 := by rw [hs.dials, if_pos ht]
    have hlt : secondLink < s.world.links.length := by
      rw [hlen]
      decide
    refine ⟨?_, ?_, Or.inr ⟨rfl, ht⟩, ?_, ?_⟩
    · show (World.setLink _ secondLink _).links.length = if s.memory.retried then 2 else 1
      rw [World.length_links_setLink]
      exact hs.dials
    · show ((World.setLink _ secondLink _).link? firstLink).isSome = true
      rw [World.link?_setLink_of_ne (by decide)]
      exact hs.first
    · have hnew : (World.setLink { s.world with now := now } secondLink
          (.ofScript script)).link? secondLink = some (.ofScript script) :=
        World.link?_setLink_self hlt _
      show ((World.setLink _ secondLink _).link? secondLink).isSome = true ↔ _
      rw [hnew]
      exact iff_of_true rfl rfl
    · intro link hl
      have hnone : s.finalLink? = none := State.isDecided_eq_false_iff.mp hd
      rw [show s.finalLink? = some link from hl] at hnone
      cases hnone
  | @redialFails len dial w f hr =>
    have hw := World.SameLinks.of_links (World.dialled_error hr)
    exact ((hs.withWorld hw).note _).settle hc.2.2.2
  | replays _ hw | replayInterrupted _ hw | sendsTo hw => exact hs.withWorld (.write hw)
  | replayFails _ hw => exact ((hs.withWorld (.write hw)).note _).settle hc.2
  | reshutsRead hw | reshutsWrite hw | shuts hw => exact hs.withWorld (.shut hw)
  | reshutFails hw => exact (hs.withWorld (.shut hw)).settle hc.2
  | answers hr => exact (hs.withWorld (.read hr)).settle hc.2
  | @sends goal buf w bytes hw =>
    have hpush : ((s.withWorld w).push bytes).Sound := by
      have hw' := hs.withWorld (.write hw)
      exact ⟨hw'.dials, hw'.first, hw'.current, hw'.second, hw'.final⟩
    exact hpush.setDeadline _ _
  | sendFails hw => exact ((hs.withWorld (.write hw)).setDeadline _ _).note _
  | bare hw => exact hs.withWorld (BareCall.effect_of_step hw).sameLinks

theorem Passes.phase (h : Passes k s c p) (hs : s.Sound) (hc : c.Phase s) :
    ∀ c', p = .goesOn c' → c'.Phase s := by
  intro c' hp
  cases h with
  | beginRead | emptyWrite | emptyWriteAll | beginCopy | confirmEnd | bringLate
  | beginShutting | goOnWaiting | lookOpen | pullEnd | pullInterrupted | pullFault =>
    cases hp <;> trivial
  | beginBareRead hd =>
    cases hp
    exact ⟨hd, rfl⟩
  | beginWrite | beginWriteAll | pullPiece => exact (resumes_offer hp).phase rfl
  | locate =>
    cases hp
    exact Or.inr rfl
  | sendFinal _ hd =>
    cases hp
    exact hs.finalLink?_eq hd
  | beginSending _ hd =>
    cases hp
    exact hd
  | nextPiece =>
    cases hp
    exact hc
  | @replayed len cut =>
    have hplace : s.memory.current = secondLink ∧ s.isDecided = false := hc
    rcases afterReplay_cases s len with ⟨-, ha⟩ | ⟨-, ha⟩
    · rw [ha] at hp
      cases hp
      exact hplace
    · rw [ha] at hp
      rcases reshutWrite_cases s len with ⟨-, hw⟩ | ⟨-, hw⟩
      · rw [hw] at hp
        cases hp
        exact hplace
      · rw [hw] at hp
        cases hp
        exact hplace
  | released hw =>
    cases hp
    have hd : s.isDecided = true := Waiter.isSet_of_released hw
    show s.finalLink? = some s.finalLink
    rw [State.finalLink_of_some (hs.finalLink?_eq hd)]
    exact hs.finalLink?_eq hd
  | lookDecided hd =>
    cases hp
    refine ⟨?_, rfl⟩
    rw [State.finalLink_of_some (hs.finalLink?_eq hd)]
    exact hs.finalLink?_eq hd

theorem Effect.phase (h : Effect k s c s₁ p) (hs : s.Sound) (hc : c.Phase s) :
    ∀ c', p = .goesOn c' → c'.Phase s₁ := by
  intro c' hp
  cases h with
  | passes h => exact h.phase hs hc c' hp
  | asksShut =>
    cases hp
    trivial
  | @reads link len w r hr =>
    rcases afterReading_cases s k link len r with ⟨-, ha⟩ | ⟨-, -, ha⟩ | ⟨-, -, ha⟩
    · rw [ha] at hp
      cases hp
      trivial
    · rw [ha] at hp
      cases hp
    · rw [ha] at hp
      cases hp
      exact hc
  | @retries link len f _ ht hd =>
    obtain ⟨l, hl⟩ := hs.current_isSome
    rw [beginRetry_eq hl] at hp ⊢
    cases hp
    refine ⟨?_, rfl, hs.current_eq_first ht, hd⟩
    rw [hs.dials, ht]
    rfl
  | @redials len dial w link hr =>
    obtain ⟨now, script, hlink, -⟩ := World.dialled_ok hr
    cases hp
    exact ⟨hlink.trans hc.1, hc.2.2.2⟩
  | replays | replayInterrupted | reshutsWrite =>
    cases hp
    exact hc
  | @reshutsRead len w hw =>
    rcases reshutWrite_cases s len with ⟨-, ha⟩ | ⟨-, ha⟩
    · rw [ha] at hp
      cases hp
      exact hc
    · rw [ha] at hp
      cases hp
      exact hc
  | sends | sendsTo => exact (resumes_afterWrite hp).phase rfl
  | sendFails =>
    cases hp
    trivial
  | @bare link call w p' hw =>
    cases p' with
    | done o => cases hp
    | goesOn call' =>
      cases hp
      exact ⟨hc.1, (BareCall.effect_of_step hw).isOfStream hc.2⟩
  | _ => cases hp

/-- A step of one call leaves the others in their phases. -/
theorem Effect.phase_of_ne (h : Effect k s c s₁ p) (hs : s.Sound) (hc : c.Phase s)
    (hk : c.holds = true → s.memory.lock.holder? = some k) (hd : d.Phase s)
    (hj : d.holds = true → s.memory.lock.holder? = some j) (hjk : j ≠ k) : d.Phase s₁ := by
  -- Either nothing guarded changes, or `k` has the lock and the question is open.
  by_cases hg : s.SameGuarded s₁
  · exact hd.congr hg
  · have hholder : s.memory.lock.holder? = some k := by
      rcases h.guarded with hsame | hh | hh
      · exact absurd hsame hg
      · exact hk hh
      · exact hh
    have hfree : d.holds ≠ true := fun hh =>
      hjk (Option.some.inj ((hj hh).symm.trans hholder))
    have hopen : s.finalLink? = none := by
      rw [← State.isDecided_eq_false_iff, ← Bool.not_eq_true]
      intro hdec
      exact hg (h.settled hdec (hc.not_provisional hdec))
    cases d with
    | reading link len =>
      rcases hd with hd | hd
      · exact Or.inl hd
      · rcases h.current hs hc with hcur | ⟨hcur, -⟩
        · exact Or.inr (hd.trans hcur.symm)
        · exact Or.inl (hd.trans hcur)
    | queued errand =>
      cases errand with
      | judge link len r =>
        rcases hd with hd | hd
        · exact Or.inl hd
        · rcases h.current hs hc with hcur | ⟨hcur, -⟩
          · exact Or.inr (hd.trans hcur.symm)
          · exact Or.inl (hd.trans hcur)
      | _ => trivial
    | sendingTo link goal buf =>
      rw [show s.finalLink? = some link from hd] at hopen
      cases hopen
    | bare link call =>
      rw [show s.finalLink? = some link from hd.1] at hopen
      cases hopen
    | redialling | replaying | reshutting | answering | sending => exact absurd rfl hfree
    | _ => trivial

/-- What a call can do while the question is open and another call has the lock: it passes, asks to
shut a half, or brings a read to its end. -/
theorem Effect.aside (h : Effect k s c s₁ p) (hc : c.Phase s) (hd : s.isDecided = false)
    (hk : c.holds = true → s.memory.lock.holder? = some k)
    (hj : s.memory.lock.holder? = some j) (hjk : j ≠ k) :
    s₁ = s ∨ (∃ half, s₁ = s.askShut half) ∨ ∃ link len w r, c = .reading link len ∧
      s.world.read link k len = some (w, r) ∧ s₁ = s.withWorld w := by
  have hother : s.memory.lock.holder? ≠ some k := fun hh =>
    hjk (Option.some.inj (hj.symm.trans hh))
  have hopen : s.finalLink? = none := State.isDecided_eq_false_iff.mp hd
  cases h with
  | passes => exact Or.inl rfl
  | asksShut => exact Or.inr (Or.inl ⟨_, rfl⟩)
  | reads hr => exact Or.inr (Or.inr ⟨_, _, _, _, rfl, hr, rfl⟩)
  | settlesAtEnd hh | settlesOnBytes hh | settlesOnFault hh | retries hh => exact absurd hh hother
  | @sendsTo link =>
    rw [show s.finalLink? = some link from hc] at hopen
    cases hopen
  | @bare link =>
    rw [show s.finalLink? = some link from hc.1] at hopen
    cases hopen
  | _ => exact absurd (hk rfl) hother

end Steps

end Stream

namespace StreamSession

open Redial.Stream

variable {rule : Rule} {setup : Setup} {m m' : Moment}

theorem opening_eq_opened {s : State} (h : setup.opening = .opened s) :
    ∃ (now : Instant) (script : LinkScript) (timeout : Duration),
      s.terms = ⟨setup.destination, timeout, setup.config.chunkLen⟩ ∧
      s.memory = .start firstLink setup.strategy ∧
      s.world.links = [some (.ofScript script)] ∧
      s.world.journal = [⟨now, .noticed (.connected setup.destination timeout)⟩,
        ⟨now, .connected firstLink⟩, ⟨setup.clock, .dialling setup.destination⟩] := by
  unfold Setup.opening World.dialledAtOnce World.connect at h
  dsimp only at h
  split at h
  · cases h
  · rename_i w link hc
    split at hc
    · cases hc
    · cases hc
      cases h
      exact ⟨_, _, _, rfl, rfl, rfl, rfl⟩

theorem memory_of_opening {s : State} (h : setup.opening = .opened s) :
    s.memory = .start firstLink setup.strategy := by
  obtain ⟨now, script, timeout, -, hm, -⟩ := opening_eq_opened h
  exact hm

theorem sound_of_opening {s : State} (h : setup.opening = .opened s) : s.Sound := by
  obtain ⟨now, script, timeout, -, hm, hl, -⟩ := opening_eq_opened h
  refine ⟨?_, ?_, ?_, ?_, ?_⟩
  · rw [hl, hm]
    rfl
  · unfold World.link?
    rw [hl]
    rfl
  · rw [hm]
    exact Or.inl rfl
  · unfold World.link?
    rw [hl, hm]
    exact iff_of_false Bool.false_ne_true Nat.zero_ne_one
  · intro link hlink
    unfold State.finalLink? at hlink
    rw [hm] at hlink
    cases hlink

theorem sameLinks_change (w : World) (action : Session.Action) :
    w.SameLinks (action.change w) := by
  cases action with
  | feed link more => exact .feed w link more
  | _ => exact ⟨rfl, fun _ => rfl⟩

/-- What happens in the world by itself is not entered in the journal. -/
theorem enters_change {P : Event → Prop} (w : World) (action : Session.Action) :
    w.Enters P (action.change w) := by
  cases action with
  | feed link more => exact .feed w link more
  | _ => exact .of_same rfl

theorem Acts.enters {P : Event → Prop} {action : Session.Action} {machine : StreamMachine}
    (h : Acts m action machine) : m.state.world.Enters P machine.env.world := by
  rcases h.env with ⟨l, he⟩ | he
  · rw [he]
    exact .refl _
  · rw [he]
    exact enters_change _ action

theorem inductive_phase : Inductive rule setup State.Sound fun _ s c => c.Phase s where
  opened s hs := sound_of_opening hs
  started k s request := trivial
  changes s action hs := by
    have hg : s.SameGuarded (s.withWorld (action.change s.world)) := .withWorld s _
    exact ⟨hs.of_same hg (sameLinks_change _ _), fun k c hc => hc.congr hg⟩
  locks s l hs := by
    have hg : s.SameGuarded (s.withLock l) := .withLock s l
    exact ⟨hs.of_same hg (.refl _), fun k c hc => hc.congr hg⟩
  steps m k c s₁ p _ _ hs hc he := ⟨he.sound hs hc, he.phase hs hc⟩
  others m k c s₁ p j d hm hk hj hjk hs hc he hd :=
    he.phase_of_ne hs hc (hm.holder hk) hd (hm.holder hj) hjk

theorem Reachable.sound (h : Reachable rule setup m) : m.state.Sound :=
  (inductive_phase.holds h).1

theorem Reachable.phase (h : Reachable rule setup m) {k : TaskId} {c : Call}
    (ht : ⟨k, c⟩ ∈ m.machine.tasks) : c.Phase m.state :=
  (inductive_phase.holds h).2 k c ht

/-! ## What follows a moment -/

/-- The connection in use is replaced only once, and only the first one is. -/
theorem Moment.Next.current (hn : m.Next rule m') (h : Reachable rule setup m) :
    m'.state.memory.current = m.state.memory.current ∨
      (m.state.memory.current = firstLink ∧ m'.state.memory.current = secondLink) := by
  rcases hn.split with ⟨action, machine, -, ha, rfl⟩ | ⟨k, c, s, p, hk, hstep, rfl⟩
  · exact Or.inl ha.sameGuarded.current
  · obtain ⟨s₁, l, he, -, rfl⟩ := does_of_step hstep
    rw [Moment.state_advance]
    exact he.current h.sound (h.phase hk)

theorem Moment.Leads.current (hl : m.Leads rule m') (h : Reachable rule setup m) :
    m'.state.memory.current = m.state.memory.current ∨
      (m.state.memory.current = firstLink ∧ m'.state.memory.current = secondLink) := by
  refine Moment.Leads.keeps
    (P := fun m' => m'.state.memory.current = m.state.memory.current ∨
      (m.state.memory.current = firstLink ∧ m'.state.memory.current = secondLink))
    hl h (Or.inl rfl) ?_
  intro m₁ m₂ h₁ hcur hn
  rcases hn.current h₁ with hsame | ⟨hfirst, hsecond⟩
  · rw [hsame]
    exact hcur
  · rcases hcur with hcur | ⟨-, hcur⟩
    · exact Or.inr ⟨hcur.symm.trans hfirst, hsecond⟩
    · rw [hfirst] at hcur
      cases hcur

theorem Moment.Leads.second (hl : m.Leads rule m') (h : Reachable rule setup m)
    (hcur : m.state.memory.current = secondLink) : m'.state.memory.current = secondLink := by
  rcases hl.current h with hsame | ⟨-, hsecond⟩
  · exact hsame.trans hcur
  · exact hsecond

/-- Once the question is settled, nothing that the lock guards changes any more. -/
theorem Moment.Next.sameGuarded (hn : m.Next rule m') (h : Reachable rule setup m)
    (hd : m.state.isDecided = true) : m.state.SameGuarded m'.state := by
  rcases hn.split with ⟨action, machine, -, ha, rfl⟩ | ⟨k, c, s, p, hk, hstep, rfl⟩
  · exact ha.sameGuarded
  · obtain ⟨s₁, l, he, -, rfl⟩ := does_of_step hstep
    rw [Moment.state_advance]
    exact (he.settled hd ((h.phase hk).not_provisional hd)).trans (.withLock s₁ l)

theorem Moment.Leads.sameGuarded (hl : m.Leads rule m') (h : Reachable rule setup m)
    (hd : m.state.isDecided = true) : m.state.SameGuarded m'.state := by
  refine Moment.Leads.keeps (P := fun m' => m.state.SameGuarded m'.state) hl h (.refl _) ?_
  intro m₁ m₂ h₁ hg hn
  exact hg.trans (hn.sameGuarded h₁ (hg.isDecided.trans hd))

end StreamSession

end Redial
