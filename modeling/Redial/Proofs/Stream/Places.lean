import Redial.Proofs.Stream.Phases

/-!
# How calls come to their places

A read that is begun while the question is open looks up the connection in use, reads from it and
brings the result to the lock; `Retrieval` lists these steps. After the dial of a retry its read
replays the hello, shuts again the halves that were asked to be shut, and waits for the reply;
`Renewal` lists the ways that lead to one of these places. Every other step leads elsewhere
(`Effect.retrieval`, `Effect.renewal`).
-/

namespace Redial.Stream

/-- Whether a call is at a place of the retry after its dial. -/
def Call.renews : Call → Bool
  | replaying .. => true
  | reshutting .. => true
  | answering _ => true
  | _ => false

/-- Where the retry goes on when the read half is settled: to the write half, if it was asked to be
shut, or to the reply. -/
inductive WriteHalfNext (s : State) (len : Nat) : Call → Prop where
  | asked (h : s.askedShut .write = true) : WriteHalfNext s len (.reshutting len .write)
  | notAsked (h : s.askedShut .write = false) : WriteHalfNext s len (.answering len)

/-- The ways to a place of the retry after its dial. -/
inductive Renewal (k : TaskId) (s : State) : Call → State → Call → Prop where
  | redials {len dial w link} (hr : s.world.dialled dial = some (w, .ok link)) :
      Renewal k s (.redialling len dial) (beginReplay (s.withWorld w) len link).1
        (.replaying len (s.memory.strategy.cut s.memory.hello.bytes).1 .first
          (s.memory.strategy.cut s.memory.hello.bytes).1.first)
  | nextPiece {len cut} :
      Renewal k s (.replaying len cut .first []) s (.replaying len cut .second cut.second)
  | replays {len cut piece rest w bytes} (hrest : rest ≠ []) (hpre : bytes <+: rest)
      (hw : s.world.write s.memory.current (.replay k) rest = some (w, .ok bytes)) :
      Renewal k s (.replaying len cut piece rest) (s.withWorld w)
        (.replaying len cut piece (rest.drop bytes.length))
  | interrupted {len cut piece rest w f} (hrest : rest ≠ [])
      (hw : s.world.write s.memory.current (.replay k) rest = some (w, .error f)) :
      Renewal k s (.replaying len cut piece rest) (s.withWorld w) (.replaying len cut piece rest)
  | toReadHalf {len cut} (h : s.askedShut .read = true) :
      Renewal k s (.replaying len cut .second []) s (.reshutting len .read)
  | toWriteHalf {len cut c'} (h : s.askedShut .read = false) (hn : WriteHalfNext s len c') :
      Renewal k s (.replaying len cut .second []) s c'
  | reshutsRead {len w c'} (hw : s.world.shut s.memory.current .read = some (w, none))
      (hn : WriteHalfNext s len c') : Renewal k s (.reshutting len .read) (s.withWorld w) c'
  | reshutsWrite {len w} (hw : s.world.shut s.memory.current .write = some (w, none)) :
      Renewal k s (.reshutting len .write) (s.withWorld w) (.answering len)

/-- Whether a call is at a place of a read that was begun while the question was open, before any
retry. -/
def Call.retrieves : Call → Bool
  | queued (.locate _) => true
  | reading .. => true
  | queued (.judge ..) => true
  | queued .confirmEnd => true
  | _ => false

/-- The ways to a place of a read that was begun while the question was open, before any retry. -/
inductive Retrieval (k : TaskId) (s : State) : Call → State → Call → Prop where
  | begins {len} (hd : s.finalLink? = none) :
      Retrieval k s (.start (.read len)) s (.queued (.locate len))
  | locates {len} : Retrieval k s (.queued (.locate len)) s (.reading s.memory.current len)
  | brings {link len w r} (hr : s.world.read link k len = some (w, r)) (hd : s.isDecided = false)
      (hne : r ≠ .ok []) :
      Retrieval k s (.reading link len) (s.withWorld w) (.queued (.judge link len r))
  | meetsEnd {link len w} (hr : s.world.read link k len = some (w, .ok [])) :
      Retrieval k s (.reading link len) (s.withWorld w) (.queued .confirmEnd)

section Steps

variable {k : TaskId} {s s₁ : State} {c c' : Call} {p : Progress Call Outcome}

/-! ## Steps of a read -/

theorem writeHalfNext_of_reshutWrite {len : Nat} (h : (reshutWrite s len).2 = .goesOn c') :
    WriteHalfNext s len c' := by
  rcases reshutWrite_cases s len with ⟨hw, he⟩ | ⟨hw, he⟩
  · rw [he] at h
    cases h
    exact .asked hw
  · rw [he] at h
    cases h
    exact .notAsked hw

theorem Resumes.not_retrieves (h : Resumes s c) : c.retrieves = false := by
  cases h <;> rfl

theorem WriteHalfNext.not_retrieves {len : Nat} (h : WriteHalfNext s len c) :
    c.retrieves = false := by
  cases h <;> rfl

theorem Passes.retrieval (h : Passes k s c p) (hp : p = .goesOn c') (hc : c'.retrieves = true) :
    Retrieval k s c s c' := by
  cases h with
  | beginWrite | beginWriteAll | pullPiece =>
    rw [(resumes_offer hp).not_retrieves] at hc
    cases hc
  | beginRead hd =>
    cases hp
    exact .begins hd
  | locate =>
    cases hp
    exact .locates
  | @replayed len cut =>
    rcases afterReplay_cases s len with ⟨-, ha⟩ | ⟨-, ha⟩
    · rw [ha] at hp
      cases hp
      cases hc
    · rw [ha] at hp
      rw [(writeHalfNext_of_reshutWrite hp).not_retrieves] at hc
      cases hc
  | emptyWrite | emptyWriteAll | confirmEnd | bringLate | pullEnd | pullFault => cases hp
  | _ =>
    cases hp
    cases hc

/-- A step leads to a place of a read before any retry in one of the listed ways only. -/
theorem Effect.retrieval (h : Effect k s c s₁ p) (hp : p = .goesOn c')
    (hc : c'.retrieves = true) : Retrieval k s c s₁ c' := by
  cases h with
  | passes h => exact h.retrieval hp hc
  | @reads link len w r hr =>
    rcases afterReading_cases s k link len r with ⟨rfl, ha⟩ | ⟨-, -, ha⟩ | ⟨hne, hd, ha⟩
    · rw [ha] at hp
      cases hp
      exact .meetsEnd hr
    · rw [ha] at hp
      cases hp
    · rw [ha] at hp
      cases hp
      exact .brings hr hd hne
  | reshutsRead =>
    rw [(writeHalfNext_of_reshutWrite hp).not_retrieves] at hc
    cases hc
  | sends | sendsTo =>
    rw [(resumes_afterWrite hp).not_retrieves] at hc
    cases hc
  | @bare link call w p' =>
    cases p' with
    | done o => cases hp
    | goesOn call' =>
      cases hp
      cases hc
  | retries | redials | replays | replayInterrupted | reshutsWrite | asksShut | sendFails =>
    cases hp
    cases hc
  | _ => cases hp

/-! ## Steps of a retry after its dial -/

theorem Call.holds_of_renews (h : c.renews = true) : c.holds = true := by
  cases c with
  | replaying | reshutting | answering => rfl
  | _ => cases h

/-- The retry uses the second connection, and the question is open. -/
theorem Call.Phase.of_renews (h : c.Phase s) (hc : c.renews = true) :
    s.memory.current = secondLink ∧ s.isDecided = false := by
  cases c with
  | replaying | reshutting | answering => exact h
  | _ => cases hc

theorem Resumes.not_renews (h : Resumes s c) : c.renews = false := by
  cases h <;> rfl

theorem Passes.renewal (h : Passes k s c p) (hp : p = .goesOn c') (hc : c'.renews = true) :
    Renewal k s c s c' := by
  cases h with
  | beginWrite | beginWriteAll | pullPiece =>
    rw [(resumes_offer hp).not_renews] at hc
    cases hc
  | nextPiece =>
    cases hp
    exact .nextPiece
  | @replayed len cut =>
    rcases afterReplay_cases s len with ⟨hr, ha⟩ | ⟨hr, ha⟩
    · rw [ha] at hp
      cases hp
      exact .toReadHalf hr
    · rw [ha] at hp
      exact .toWriteHalf hr (writeHalfNext_of_reshutWrite hp)
  | emptyWrite | emptyWriteAll | confirmEnd | bringLate | pullEnd | pullFault => cases hp
  | _ =>
    cases hp
    cases hc

/-- A step leads to a place of the retry after its dial in one of the listed ways only. -/
theorem Effect.renewal (h : Effect k s c s₁ p) (hp : p = .goesOn c') (hc : c'.renews = true) :
    Renewal k s c s₁ c' := by
  cases h with
  | passes h => exact h.renewal hp hc
  | @reads link len w r =>
    rcases afterReading_cases s k link len r with ⟨-, ha⟩ | ⟨-, -, ha⟩ | ⟨-, -, ha⟩
    · rw [ha] at hp
      cases hp
      cases hc
    · rw [ha] at hp
      cases hp
    · rw [ha] at hp
      cases hp
      cases hc
  | redials hr =>
    cases hp
    exact .redials hr
  | replays hrest hw =>
    cases hp
    obtain ⟨l, l', -, hl, -⟩ := World.write_eq_some hw
    exact .replays hrest (Link.write_isPrefix hl) hw
  | replayInterrupted hrest hw =>
    cases hp
    exact .interrupted hrest hw
  | reshutsRead hw => exact .reshutsRead hw (writeHalfNext_of_reshutWrite hp)
  | reshutsWrite hw =>
    cases hp
    exact .reshutsWrite hw
  | sends | sendsTo =>
    rw [(resumes_afterWrite hp).not_renews] at hc
    cases hc
  | @bare link call w p' =>
    cases p' with
    | done o => cases hp
    | goesOn call' =>
      cases hp
      cases hc
  | retries | asksShut | sendFails =>
    cases hp
    cases hc
  | _ => cases hp

/-! ## The start of a call -/

/-- No step leads back to the start of a call. -/
theorem Effect.not_start (h : Effect k s c s₁ p) (hp : p = .goesOn c') : ∀ request,
    c' ≠ .start request := by
  have hresumes : Resumes s c' → ∀ request, c' ≠ .start request := by
    intro hr request
    cases hr <;> exact Call.noConfusion
  have hrenews : ∀ {len}, WriteHalfNext s len c' → ∀ request, c' ≠ .start request := by
    intro len hn request
    cases hn <;> exact Call.noConfusion
  cases h with
  | passes h =>
    cases h with
    | beginWrite | beginWriteAll | pullPiece => exact hresumes (resumes_offer hp)
    | @replayed len cut =>
      rcases afterReplay_cases s len with ⟨-, ha⟩ | ⟨-, ha⟩
      · rw [ha] at hp
        cases hp
        exact fun _ => Call.noConfusion
      · rw [ha] at hp
        exact hrenews (writeHalfNext_of_reshutWrite hp)
    | emptyWrite | emptyWriteAll | confirmEnd | bringLate | pullEnd | pullFault => cases hp
    | _ =>
      cases hp
      exact fun _ => Call.noConfusion
  | @reads link len w r =>
    rcases afterReading_cases s k link len r with ⟨-, ha⟩ | ⟨-, -, ha⟩ | ⟨-, -, ha⟩
    all_goals
      rw [ha] at hp
      cases hp
    all_goals exact fun _ => Call.noConfusion
  | reshutsRead => exact hrenews (writeHalfNext_of_reshutWrite hp)
  | sends | sendsTo => exact hresumes (resumes_afterWrite hp)
  | @bare link call w p' =>
    cases p' with
    | done o => cases hp
    | goesOn call' =>
      cases hp
      exact fun _ => Call.noConfusion
  | retries | redials | replays | replayInterrupted | reshutsWrite | asksShut | sendFails =>
    cases hp
    exact fun _ => Call.noConfusion
  | _ => cases hp

end Steps

end Redial.Stream
