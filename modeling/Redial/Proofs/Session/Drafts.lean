import Redial.Proofs.Config.Settings
import Redial.Proofs.Random.Offsets
import Redial.Proofs.Stream.Arming
import Redial.Proofs.Wire.Sources
import Redial.Session.Draft

/-!
# Sessions that run on settings

Two places rely on what settings cannot do to a configuration. A draw needs a range with an offset
in it, and a strategy keeps the range that it was made with (`Reachable.range?`). A copy takes a
read of its source that comes back with nothing for the end, so it needs room for a byte
(`pulling_succeeds_iff`). Whatever the settings are, a session either does not begin, with nothing
dialled, or has both (`settings_compose`).
-/

namespace Redial

/-! ## The range of a strategy -/

namespace SplitStrategy

variable {s : SplitStrategy} {range : OffsetRange}

theorem range?_offset (s : SplitStrategy) (helloLen : Nat) :
    (s.offset helloLen).2.range? = s.range? := by
  cases s <;> rfl

theorem range?_cut (s : SplitStrategy) (hello : Bytes) : (s.cut hello).2.range? = s.range? := by
  unfold cut
  split
  · rfl
  · exact s.range?_offset _

/-- A strategy that draws answers with an offset of its range. -/
theorem offset_mem (h : s.range? = some range) (helloLen : Nat) :
    (s.offset helloLen).1 ∈ range := by
  cases s with
  | scripted script => cases h
  | uniform range stream =>
    cases h
    exact stream.draw_mem range

end SplitStrategy

/-- Between the ends of its own range, a configuration finds the strategy that it describes. -/
theorem Config.exists_between?_eq_strategy (c : Config) (entropy : StreamKey) :
    ∃ stream, SplitStrategy.between? (.ofNat c.splitRange.lo) (.ofNat c.splitRange.hi) stream =
      some (c.strategy entropy) := by
  unfold SplitStrategy.between? Config.strategy
  rw [OffsetRange.between?_ends]
  exact ⟨_, rfl⟩

namespace Stream

section Steps

variable {k : TaskId} {s s₁ : State} {c : Call} {p : Progress Call Outcome} {copied : Nat}
  {source : Source}

/-- Cutting a hello moves the draws on and leaves their range. -/
theorem Effect.range? (h : Effect k s c s₁ p) (hs : s.Sound) :
    s₁.memory.strategy.range? = s.memory.strategy.range? := by
  cases h with
  | asksShut => exact congrArg SplitStrategy.range? (State.SameGuarded.askShut s _).strategy
  | retries =>
    obtain ⟨l, hl⟩ := hs.current_isSome
    rw [beginRetry_eq hl]
  | redials => exact s.memory.strategy.range?_cut _
  | _ => rfl

/-- A copy that has room for a byte succeeds at the end of its source only. -/
theorem pulling_succeeds_iff (hlen : 0 < s.terms.chunkLen) :
    (∃ s' total left, Call.step k s (.pulling copied source) =
      some (s', .done (.copied (.ok total) left))) ↔ source.AtEnd s.world.opened := by
  rw [← Source.pull_eq_end_iff hlen]
  constructor
  · rintro ⟨s', total, left, hstep⟩
    obtain ⟨s₁, l, he, -, -⟩ := does_of_step hstep
    generalize hp : (Progress.done (.copied (.ok total) left) : Progress Call Outcome) = p at he
    cases he with
    | passes h =>
      cases h with
      | pullEnd hpull => exact ⟨_, hpull⟩
      | @pullPiece _ _ source' piece hpull =>
        obtain ⟨c', hgo⟩ := offer_goesOn s k (.copy copied source') piece
        cases hp.trans hgo
      | pullInterrupted hpull => cases hp
      | pullFault hpull => cases hp
  · rintro ⟨left, hpull⟩
    refine ⟨s, copied, left, ?_⟩
    show (source.pull s.world.opened s.terms.chunkLen).bind _ = _
    rw [hpull]
    rfl

end Steps

end Stream

namespace StreamSession

open Redial.Stream

variable {rule : Rule} {setup : Setup} {m : Moment}

theorem inductive_range? : Inductive rule setup
    (fun s => s.memory.strategy.range? = setup.strategy.range?) fun _ _ _ => True where
  opened s hs := by
    rw [memory_of_opening hs]
    rfl
  started k s request := trivial
  changes s action h := ⟨h, fun _ _ _ => trivial⟩
  locks s l h := ⟨h, fun _ _ _ => trivial⟩
  steps m k c s₁ p hm _ h _ he := ⟨(he.range? hm.sound).trans h, fun _ _ => trivial⟩
  others m k c s₁ p j d _ _ _ _ _ _ _ _ := trivial

/-- A session draws from the range that it was begun with. -/
theorem Reachable.range? (h : Reachable rule setup m) :
    m.state.memory.strategy.range? = setup.strategy.range? :=
  (inductive_range?.holds h).1

/-- Settings compose. A list of settings is refused if and only if one of them has an empty range or
empty chunks, with the text of the first of these, and the session that it was meant for ends with
nothing dialled. Every other list has a configuration in which each field is what the last setting
of it says, or the default. The range of it has an offset and its chunks have a byte. So the
strategy that it describes can be made from the ends of the range, a session always draws from that
range, and while the question is open no copy takes a read without room for the end of its source.
Which configuration it is depends on the order of the settings of each field only. -/
theorem settings_compose (settings : List Setting) :
    (∀ refusal, Config.ofSettings settings = .error refusal ↔
      ∃ before s after, settings = before ++ s :: after ∧
        (∀ t ∈ before, ∀ text, ¬ t.RefusedWith text) ∧ s.RefusedWith refusal.message) ∧
    ((∃ refusal, Config.ofSettings settings = .error refusal) ↔
      (∃ lo hi, .splitRange lo hi ∈ settings ∧ hi < lo) ∨ .chunkLen 0 ∈ settings) ∧
    (∀ refusal, Config.ofSettings settings = .error refusal →
      ∀ draft : Draft, draft.settings = settings →
        draft.beginning = .refused refusal (.fresh draft.clock draft.dials)) ∧
    (∀ config, Config.ofSettings settings = .ok config →
      (∀ f, config.get f =
        (settings.filterMap (Setting.argument? f)).getLast?.getD (Config.default.get f)) ∧
      config.splitRange.lo ≤ config.splitRange.hi ∧ 1 ≤ config.chunkLen ∧
      (∀ entropy, ∃ stream,
        SplitStrategy.between? (.ofNat config.splitRange.lo) (.ofNat config.splitRange.hi) stream =
          some (config.strategy entropy)) ∧
      (∀ draft : Draft, draft.settings = settings →
        draft.beginning = .dialled (draft.setup config).opening ∧
        ∀ m, Reachable anything (draft.setup config) m →
          (draft.script = none →
            m.state.memory.strategy.range? = some config.splitRange ∧
            ∀ helloLen, (m.state.memory.strategy.offset helloLen).1 ∈ config.splitRange) ∧
          (∀ k copied source,
            (∃ s total left, Call.step k m.state (.pulling copied source) =
              some (s, .done (.copied (.ok total) left))) ↔
            source.AtEnd m.state.world.opened))) ∧
    (∀ settings', (∀ f, settings.filter (·.field = f) = settings'.filter (·.field = f)) →
      (Config.ofSettings settings).toOption = (Config.ofSettings settings').toOption) := by
  refine ⟨fun refusal => Config.ofSettings_eq_error_iff, Config.exists_ofSettings_eq_error_iff, ?_,
    ?_, fun settings' h => Config.toOption_ofSettings_congr h⟩
  · rintro refusal h draft rfl
    unfold Draft.beginning
    rw [h]
  · intro config h
    refine ⟨Config.get_ofSettings h, config.splitRange.lo_le_hi, config.chunkLen_pos,
      config.exists_between?_eq_strategy, ?_⟩
    rintro draft rfl
    refine ⟨?_, fun m hm => ⟨fun hdrawn => ?_, fun k copied source => ?_⟩⟩
    · unfold Draft.beginning
      rw [h]
    · have hrange : m.state.memory.strategy.range? = some config.splitRange := by
        rw [hm.range?]
        show (draft.strategy config).range? = _
        unfold Draft.strategy
        rw [hdrawn]
        rfl
      exact ⟨hrange, SplitStrategy.offset_mem hrange⟩
    · refine pulling_succeeds_iff ?_
      rw [hm.terms]
      exact config.chunkLen_pos

/-- The session whose first connection is reset by its first read, described by settings. -/
def resetDraft (settings : List Setting) : Draft where
  destination := resetSession.destination
  settings := settings
  script := none
  entropy := .ofSeed 0
  clock := resetSession.clock
  dials := resetSession.dials

/-- Settings of three fields, one field after the other in turns. -/
def mixedSettings : List Setting :=
  [.chunkLen 4, .splitRange 9 9, .splitSeed 7, .chunkLen 1, .splitRange 1 8]

/-- The same settings, one field after the other. -/
def sortedSettings : List Setting :=
  [.splitRange 9 9, .splitRange 1 8, .chunkLen 4, .chunkLen 1, .splitSeed 7]

/-- An empty chunk is refused although an empty range comes after it. Two orders of settings that do
not differ within a field have one configuration; the stream that is opened with it does not take a
piece of two bytes for the end of a source. -/
theorem settings_compose_in_either_order :
    (resetDraft [.rttFactor 1, .chunkLen 0, .splitRange 2 1]).beginning =
      .refused .emptyChunk (.fresh resetSession.clock resetSession.dials) ∧
    ∃ config m, Config.ofSettings mixedSettings = .ok config ∧
      Config.ofSettings sortedSettings = .ok config ∧
      config.get .splitRange = (1, 8) ∧ config.get .chunkLen = (1 : Nat) ∧
      Reachable anything ((resetDraft mixedSettings).setup config) m ∧
      (m.state.memory.strategy.offset 100).1 ∈ config.splitRange ∧
      ¬ ∃ s total left, Call.step 0 m.state (.pulling 0 ⟨[⟨none, .data [1, 2]⟩]⟩) =
        some (s, .done (.copied (.ok total) left)) := by
  constructor
  · obtain ⟨hfirst, -, hrefused, -⟩ := settings_compose [.rttFactor 1, .chunkLen 0, .splitRange 2 1]
    refine hrefused .emptyChunk ((hfirst .emptyChunk).mpr ?_) _ rfl
    refine ⟨[.rttFactor 1], .chunkLen 0, [.splitRange 2 1], rfl, fun t ht text h => ?_, .emptyChunk⟩
    cases List.mem_singleton.mp ht
    cases h
  · obtain ⟨config, hconfig⟩ : ∃ config, Config.ofSettings mixedSettings = .ok config := ⟨_, rfl⟩
    obtain ⟨-, -, -, hbuilt, horder⟩ := settings_compose mixedSettings
    obtain ⟨hget, -, -, -, hsession⟩ := hbuilt config hconfig
    obtain ⟨s, hs⟩ : ∃ s, ((resetDraft mixedSettings).setup config).opening = .opened s :=
      ⟨_, rfl⟩
    have hm : Reachable anything ((resetDraft mixedSettings).setup config) (.first s) :=
      ⟨s, hs, .refl⟩
    obtain ⟨hdraws, hends⟩ := (hsession (resetDraft mixedSettings) rfl).2 _ hm
    refine ⟨config, .first s, hconfig, ?_, hget .splitRange, hget .chunkLen, hm,
      (hdraws rfl).2 100, fun hended => ?_⟩
    · have hsame := horder sortedSettings fun f => by cases f <;> decide
      rw [hconfig] at hsame
      cases hsorted : Config.ofSettings sortedSettings with
      | error refusal =>
        rw [hsorted] at hsame
        cases hsame
      | ok config' =>
        rw [hsorted] at hsame
        cases hsame
        rfl
    · rcases (hends 0 0 _).mp hended with hnil | ⟨g, rest, hitems, -⟩
      · cases hnil
      · cases hitems

end StreamSession

end Redial
