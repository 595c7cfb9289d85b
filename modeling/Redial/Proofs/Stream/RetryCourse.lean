import Redial.Proofs.Stream.Events
import Redial.Proofs.Wire.Trace

/-!
# The course of a retry

What a retry calls, in order, up to each of its places (`Retry.Comes`) and in each way in which it
can end (`Retry.Ends`): it closes the connection in use, whether that is refused or not; dials once;
writes the hello on the connection that the dial made; shuts there the read half and then the write
half, each if it was asked to be shut; and reads once. The first failure after the closing ends it.
A step of the retry leads from place to place along this course (`Effect.retry_course`).
-/

namespace Redial.Stream

/-- What is left of a hello when `rest` of a piece is left. -/
def Piece.left (cut : Cut) (rest : Bytes) : Piece → Bytes
  | first => rest ++ cut.second
  | second => rest

/-- The place of a call is one that it leaves with a look whether a half was asked to be shut. -/
def Call.LooksAt (s : State) (half : Half) : Call → Prop
  | replaying _ _ .second [] => half = .read ∨ s.askedShut .read = false
  | reshutting _ .read => half = .write
  | _ => False

/-- What is fixed for a retry from its start. -/
structure Retry where
  /-- The read that makes it. -/
  task : TaskId
  /-- What it dials. -/
  destination : Address
  /-- What it replays. -/
  hello : Bytes
  /-- How much the read asks for. -/
  len : Nat

/-- When a retry looks whether a half was asked to be shut, after which calls, and what it finds. -/
abbrev Looks := Half → List Event → Bool → Prop

namespace Retry

variable (t : Retry) (looks : Looks)

/-- `writes` are writes of the hello that each took something or were merely interrupted, and `rest`
of the hello is left. -/
structure Replays (writes : List Event) (rest : Bytes) : Prop where
  each : ∀ e ∈ writes,
    (∃ bytes, bytes ≠ [] ∧ e = .accepted secondLink (.replay t.task) bytes) ∨
    ∃ offered f, f.isInterrupted = true ∧ e = .writeFailed secondLink (.replay t.task) offered f
  accepted : (writes.filterMap (Event.acceptedBy? secondLink)).flatten ++ rest = t.hello

/-- The calls up to the dial. -/
def dials (refused : ShutAnswer) : List Event :=
  [.closed firstLink refused, .dialling t.destination]

/-- The calls up to the connection that the dial makes. -/
def connects (refused : ShutAnswer) : List Event := t.dials refused ++ [.connected secondLink]

/-- What is called to shut a half, after `calls`: nothing unless it was asked to be shut. -/
inductive Reshuts (half : Half) (calls : List Event) : List Event → Prop where
  | unasked (h : looks half calls false) : Reshuts half calls []
  | granted (h : looks half calls true) : Reshuts half calls [.shut secondLink half none]

/-- The calls that the retry has made when it has come to a place. -/
inductive Comes : List Event → Call → Prop where
  | dials {refused} : Comes (t.dials refused) (.redialling t.len secondLink)
  | replays {refused writes cut piece rest} (hw : t.Replays writes (Piece.left cut rest piece)) :
      Comes (t.connects refused ++ writes) (.replaying t.len cut piece rest)
  | shutsRead {refused writes} (hw : t.Replays writes [])
      (hr : looks .read (t.connects refused ++ writes) true) :
      Comes (t.connects refused ++ writes) (.reshutting t.len .read)
  | shutsWrite {refused writes read} (hw : t.Replays writes [])
      (hr : Reshuts looks .read (t.connects refused ++ writes) read)
      (hs : looks .write (t.connects refused ++ writes ++ read) true) :
      Comes (t.connects refused ++ writes ++ read) (.reshutting t.len .write)
  | answers {refused writes read write} (hw : t.Replays writes [])
      (hr : Reshuts looks .read (t.connects refused ++ writes) read)
      (hs : Reshuts looks .write (t.connects refused ++ writes ++ read) write) :
      Comes (t.connects refused ++ writes ++ read ++ write) (.answering t.len)

/-- All calls that the retry makes, what its read comes to, and the connection that is kept. `reads`
says what a read on the new connection can come to. -/
inductive Ends (reads : Except Fault Bytes → Prop) :
    List Event → Except Fault Bytes → LinkId → Prop where
  | redialFails {refused f} :
      Ends reads (t.dials refused ++ [.dialFailed f])
        (.error (RetryFault.toFault ⟨.redial t.destination, f⟩)) firstLink
  | replayFails {refused writes rest offered r f replayed} (hw : t.Replays writes rest)
      (hne : offered ≠ []) (ho : offered <+: rest) (hf : ReplayFails r f) :
      Ends reads (t.connects refused ++ writes ++
          [World.writeEvent secondLink (.replay t.task) offered r])
        (.error (RetryFault.toFault ⟨.replay replayed, f⟩)) secondLink
  | readShutFails {refused writes f} (hw : t.Replays writes [])
      (hr : looks .read (t.connects refused ++ writes) true) :
      Ends reads (t.connects refused ++ writes ++ [.shut secondLink .read (some f)]) (.error f)
        secondLink
  | writeShutFails {refused writes read f} (hw : t.Replays writes [])
      (hr : Reshuts looks .read (t.connects refused ++ writes) read)
      (hs : looks .write (t.connects refused ++ writes ++ read) true) :
      Ends reads (t.connects refused ++ writes ++ read ++ [.shut secondLink .write (some f)])
        (.error f) secondLink
  | replies {refused writes read write r} (hw : t.Replays writes [])
      (hr : Reshuts looks .read (t.connects refused ++ writes) read)
      (hs : Reshuts looks .write (t.connects refused ++ writes ++ read) write) (hread : reads r) :
      Ends reads (t.connects refused ++ writes ++ read ++ write ++
          [World.readEvent secondLink t.task r]) r secondLink

variable {t looks} {looks' : Looks} {calls writes : List Event} {rest rest' bytes : Bytes}
  {c : Call} {half : Half} {read : List Event}

/-! ## Writes of the hello -/

theorem Replays.start : t.Replays [] t.hello :=
  ⟨fun _ he => absurd he List.not_mem_nil, rfl⟩

theorem Replays.accepts (h : t.Replays writes rest) (hb : bytes ≠ []) (hr : bytes ++ rest' = rest) :
    t.Replays (writes ++ [.accepted secondLink (.replay t.task) bytes]) rest' := by
  refine ⟨fun e he => ?_, ?_⟩
  · rcases List.mem_append.mp he with he | he
    · exact h.each e he
    · exact Or.inl ⟨bytes, hb, List.mem_singleton.mp he⟩
  · have hlast : [Event.accepted secondLink (.replay t.task) bytes].filterMap
        (Event.acceptedBy? secondLink) = [bytes] := rfl
    rw [List.filterMap_append, hlast, List.flatten_append, List.flatten_singleton,
      List.append_assoc, hr]
    exact h.accepted

theorem Replays.interrupted (h : t.Replays writes rest) {offered : Bytes} {f : Fault}
    (hf : f.isInterrupted = true) :
    t.Replays (writes ++ [.writeFailed secondLink (.replay t.task) offered f]) rest := by
  refine ⟨fun e he => ?_, ?_⟩
  · rcases List.mem_append.mp he with he | he
    · exact h.each e he
    · exact Or.inr ⟨offered, f, hf, List.mem_singleton.mp he⟩
  · have hlast : [Event.writeFailed secondLink (.replay t.task) offered f].filterMap
        (Event.acceptedBy? secondLink) = [] := rfl
    rw [List.filterMap_append, hlast, List.append_nil]
    exact h.accepted

theorem Replays.not_dialFailed (h : t.Replays writes rest) (f : Fault) :
    Event.dialFailed f ∉ writes := by
  intro he
  rcases h.each _ he with ⟨bytes, -, heq⟩ | ⟨offered, g, -, heq⟩
  · cases heq
  · cases heq

/-! ## Looks -/

theorem Reshuts.mono (h : Reshuts looks half calls read)
    (hm : ∀ half calls asked, looks half calls asked → looks' half calls asked) :
    Reshuts looks' half calls read := by
  cases h with
  | unasked h => exact .unasked (hm _ _ _ h)
  | granted h => exact .granted (hm _ _ _ h)

theorem Reshuts.not_dialFailed (h : Reshuts looks half calls read) (f : Fault) :
    Event.dialFailed f ∉ read := by
  cases h <;> simp

theorem Comes.mono (h : t.Comes looks calls c)
    (hm : ∀ half calls asked, looks half calls asked → looks' half calls asked) :
    t.Comes looks' calls c := by
  cases h with
  | dials => exact .dials
  | replays hw => exact .replays hw
  | shutsRead hw hr => exact .shutsRead hw (hm _ _ _ hr)
  | shutsWrite hw hr hs => exact .shutsWrite hw (hr.mono hm) (hm _ _ _ hs)
  | answers hw hr hs => exact .answers hw (hr.mono hm) (hs.mono hm)

theorem Comes.holds (h : t.Comes looks calls c) : c.holds = true := by
  cases h <;> rfl

/-- The first connection is kept if the dial has failed, and only then. -/
theorem Ends.link_iff {reads : Except Fault Bytes → Prop} {r : Except Fault Bytes} {link : LinkId}
    (h : t.Ends looks reads calls r link) :
    link = firstLink ↔ ∃ f, Event.dialFailed f ∈ calls := by
  have hconnects : ∀ refused f, Event.dialFailed f ∉ t.connects refused := by
    intro refused f
    simp [connects, dials]
  cases h with
  | redialFails =>
    exact iff_of_true rfl ⟨_, List.mem_append_right _ (List.mem_singleton_self _)⟩
  | replayFails hw hne ho hf =>
    refine iff_of_false (by decide) ?_
    rintro ⟨f, hmem⟩
    cases hf <;> simp [hconnects, hw.not_dialFailed, World.writeEvent] at hmem
  | readShutFails hw =>
    refine iff_of_false (by decide) ?_
    rintro ⟨f, hmem⟩
    simp [hconnects, hw.not_dialFailed] at hmem
  | writeShutFails hw hr =>
    refine iff_of_false (by decide) ?_
    rintro ⟨f, hmem⟩
    simp [hconnects, hw.not_dialFailed, hr.not_dialFailed] at hmem
  | @replies refused writes read write r hw hr hs =>
    refine iff_of_false (by decide) ?_
    rintro ⟨f, hmem⟩
    cases r <;> simp [hconnects, hw.not_dialFailed, hr.not_dialFailed, hs.not_dialFailed,
      World.readEvent] at hmem

end Retry

/-! ## One step of a retry -/

/-- Where a retry goes on when the read half is settled. -/
theorem Retry.comes_of_reshutWrite {s : State} {t : Retry} {looks : Looks} {refused : ShutAnswer}
    {writes read : List Event} {c' : Call} (hw : t.Replays writes [])
    (hr : Retry.Reshuts looks .read (t.connects refused ++ writes) read)
    (hlook : looks .write (t.connects refused ++ writes ++ read) (s.askedShut .write))
    (hp : (reshutWrite s t.len).2 = .goesOn c') :
    t.Comes looks (t.connects refused ++ writes ++ read) c' := by
  cases writeHalfNext_of_reshutWrite hp with
  | asked h =>
    rw [h] at hlook
    exact .shutsWrite hw hr hlook
  | notAsked h =>
    rw [h] at hlook
    have hall : t.Comes looks (t.connects refused ++ writes ++ read ++ []) (.answering t.len) :=
      .answers hw hr (.unasked hlook)
    rw [List.append_nil] at hall
    exact hall

/-- Where a step of a retry leads that has made `calls` before: to the next place of its course, or
to an end of it, with the question settled. -/
inductive Retry.Advances (t : Retry) (looks : Looks) (calls : List Event) (s s₁ : State)
    (p : Progress Call Outcome) : Prop where
  | goesOn {more c'} (hp : p = .goesOn c') (htrace : s.world.Traces t.task more s₁.world)
      (hcomes : t.Comes looks (calls ++ more) c') (hello : s₁.memory.hello = s.memory.hello)
  | ends {more r link} (hp : p = .done (.read r)) (htrace : s.world.Traces t.task more s₁.world)
      (hends : t.Ends looks (fun r => ∃ w, s.world.read secondLink t.task t.len = some (w, r))
        (calls ++ more) r link)
      (hlink : s.memory.current = link) (final : s₁.finalLink? = some link)

section Steps

variable {s s₁ : State} {c : Call} {p : Progress Call Outcome} {t : Retry} {looks looks' : Looks}
  {calls writes read write : List Event} {refused : ShutAnswer}

/-- The question is settled on the connection in use. -/
theorem State.finalLink?_settle_of_memory {s' : State} (hm : s'.memory = s.memory)
    (hopen : s.isDecided = false) : s'.settle.finalLink? = some s.memory.current := by
  rw [← hm]
  refine State.finalLink?_settle ?_
  unfold State.isDecided
  rw [hm]
  exact hopen

theorem Effect.course_of_redialling (h : Effect t.task s (.redialling t.len secondLink) s₁ p)
    (hc : Call.Phase s (.redialling t.len secondLink))
    (hdest : s.terms.destination = t.destination) (hhello : s.memory.hello.bytes = t.hello) :
    t.Advances looks (t.dials refused) s s₁ p := by
  obtain ⟨-, -, hcur, hopen⟩ := hc
  cases h with
  | passes hpass => cases hpass
  | @redials _ _ w link hr =>
    have hall := SplitStrategy.first_append_second_cut s.memory.strategy s.memory.hello.bytes
    rw [hhello] at hall
    have hw : t.Replays [] (Piece.left (s.memory.strategy.cut s.memory.hello.bytes).1
        (s.memory.strategy.cut s.memory.hello.bytes).1.first .first) := by
      unfold Piece.left
      dsimp only
      rw [hhello, hall]
      exact .start
    have hcomes : t.Comes looks (t.connects refused ++ []) _ := .replays hw
    rw [List.append_nil] at hcomes
    exact .goesOn rfl ((World.Traces.dialled_ok hr).trans_nil (.note _ _)) hcomes rfl
  | @redialFails _ _ w f hr =>
    refine .ends rfl (((World.Traces.dialled_error hr).trans_nil (.note w _)).trans_nil (.note _ _))
      ?_ hcur (hcur ▸ State.finalLink?_settle_of_memory rfl hopen)
    rw [hdest]
    exact .redialFails

theorem Effect.course_of_replaying {cut : Cut} {piece : Piece} {rest : Bytes}
    (h : Effect t.task s (.replaying t.len cut piece rest) s₁ p)
    (hc : Call.Phase s (.replaying t.len cut piece rest))
    (hw : t.Replays writes (piece.left cut rest))
    (hlook : ∀ half, Call.LooksAt s half (.replaying t.len cut piece rest) →
      looks half (t.connects refused ++ writes) (s.askedShut half)) :
    t.Advances looks (t.connects refused ++ writes) s s₁ p := by
  obtain ⟨hcur, hopen⟩ := hc
  cases h with
  | passes hpass =>
    cases hpass with
    | nextPiece =>
      refine .goesOn rfl (.refl _) ?_ rfl
      rw [List.append_nil]
      exact .replays hw
    | replayed =>
      have hread := hlook .read (Or.inl rfl)
      rcases afterReplay_cases s t.len with ⟨hasked, ha⟩ | ⟨hasked, ha⟩
      · refine .goesOn ha (.refl _) ?_ rfl
        rw [List.append_nil]
        exact .shutsRead hw (hasked ▸ hread)
      · have hwrite := hlook .write (Or.inr hasked)
        rw [← List.append_nil (t.connects refused ++ writes)] at hwrite
        exact .goesOn ha (.refl _)
          (Retry.comes_of_reshutWrite hw (.unasked (hasked ▸ hread)) hwrite rfl) rfl
  | @replays _ _ _ _ w bytes hrest hwrite hb =>
    rw [hcur] at hwrite
    obtain ⟨l, l', -, hl, -⟩ := World.write_eq_some hwrite
    have happ : bytes ++ rest.drop bytes.length = rest :=
      List.prefix_iff_eq_append.mp (Link.write_isPrefix hl)
    have hleft : bytes ++ piece.left cut (rest.drop bytes.length) = piece.left cut rest := by
      cases piece with
      | first =>
        unfold Piece.left
        dsimp only
        rw [← List.append_assoc, happ]
      | second => exact happ
    refine .goesOn rfl (.write hwrite) ?_ rfl
    rw [List.append_assoc]
    exact .replays (hw.accepts hb hleft)
  | @replayInterrupted _ _ _ _ w f hrest hwrite hf =>
    rw [hcur] at hwrite
    refine .goesOn rfl (.write hwrite) ?_ rfl
    rw [List.append_assoc]
    exact .replays (hw.interrupted hf)
  | @replayFails _ _ _ _ w r f hrest hwrite hf =>
    rw [hcur] at hwrite
    have hfront : rest <+: piece.left cut rest := by
      cases piece with
      | first => exact List.prefix_append _ _
      | second => exact List.prefix_refl _
    exact .ends rfl (((World.Traces.write hwrite).trans_nil (.note w _)).trans_nil (.note _ _))
      (.replayFails hw hrest hfront hf) hcur (hcur ▸ State.finalLink?_settle_of_memory rfl hopen)

theorem Effect.course_of_reshutting_read (h : Effect t.task s (.reshutting t.len .read) s₁ p)
    (hc : Call.Phase s (.reshutting t.len .read)) (hw : t.Replays writes [])
    (hr : looks .read (t.connects refused ++ writes) true)
    (hlook : ∀ w, s.world.shut secondLink .read = some (w, none) →
      looks .write (t.connects refused ++ writes ++ [.shut secondLink .read none])
        (s.askedShut .write)) :
    t.Advances looks (t.connects refused ++ writes) s s₁ p := by
  obtain ⟨hcur, hopen⟩ := hc
  cases h with
  | passes hpass => cases hpass
  | @reshutsRead _ w hshut =>
    rw [hcur] at hshut
    exact .goesOn rfl (.shut hshut)
      (Retry.comes_of_reshutWrite hw (.granted hr) (hlook w hshut) rfl) rfl
  | @reshutFails _ _ w f hshut =>
    rw [hcur] at hshut
    exact .ends rfl ((World.Traces.shut hshut).trans_nil (.note _ _)) (.readShutFails hw hr)
      hcur (hcur ▸ State.finalLink?_settle_of_memory rfl hopen)

theorem Effect.course_of_reshutting_write (h : Effect t.task s (.reshutting t.len .write) s₁ p)
    (hc : Call.Phase s (.reshutting t.len .write)) (hw : t.Replays writes [])
    (hr : Retry.Reshuts looks .read (t.connects refused ++ writes) read)
    (hs : looks .write (t.connects refused ++ writes ++ read) true) :
    t.Advances looks (t.connects refused ++ writes ++ read) s s₁ p := by
  obtain ⟨hcur, hopen⟩ := hc
  cases h with
  | passes hpass => cases hpass
  | @reshutsWrite _ w hshut =>
    rw [hcur] at hshut
    exact .goesOn rfl (.shut hshut) (.answers hw hr (.granted hs)) rfl
  | @reshutFails _ _ w f hshut =>
    rw [hcur] at hshut
    exact .ends rfl ((World.Traces.shut hshut).trans_nil (.note _ _)) (.writeShutFails hw hr hs)
      hcur (hcur ▸ State.finalLink?_settle_of_memory rfl hopen)

theorem Effect.course_of_answering (h : Effect t.task s (.answering t.len) s₁ p)
    (hc : Call.Phase s (.answering t.len)) (hw : t.Replays writes [])
    (hr : Retry.Reshuts looks .read (t.connects refused ++ writes) read)
    (hs : Retry.Reshuts looks .write (t.connects refused ++ writes ++ read) write) :
    t.Advances looks (t.connects refused ++ writes ++ read ++ write) s s₁ p := by
  obtain ⟨hcur, hopen⟩ := hc
  cases h with
  | passes hpass => cases hpass
  | @answers _ w r hread =>
    rw [hcur] at hread
    exact .ends rfl ((World.Traces.read hread).trans_nil (.note _ _)) (.replies hw hr hs ⟨w, hread⟩)
      hcur (hcur ▸ State.finalLink?_settle_of_memory rfl hopen)

/-- A step of a retry leads from place to place along its course. -/
theorem Effect.retry_course (h : Effect t.task s c s₁ p) (hc : c.Phase s)
    (hcomes : t.Comes looks calls c) (hdest : s.terms.destination = t.destination)
    (hhello : s.memory.hello.bytes = t.hello)
    (hm : ∀ half calls asked, looks half calls asked → looks' half calls asked)
    (hlook : ∀ half more, c.LooksAt s half → s.world.Traces t.task more s₁.world →
      looks' half (calls ++ more) (s.askedShut half)) : t.Advances looks' calls s s₁ p := by
  cases hcomes.mono hm with
  | dials => exact h.course_of_redialling hc hdest hhello
  | @replays refused writes cut piece rest hw =>
    refine h.course_of_replaying hc hw fun half hat => ?_
    -- The look is at the end of the replay, in a step that calls nothing.
    have hsame : s.world.Traces t.task [] s₁.world := by
      cases rest with
      | nil =>
        cases h with
        | passes => exact .refl _
        | replays hrest | replayInterrupted hrest | replayFails hrest => exact absurd rfl hrest
      | cons b bs => cases piece <;> exact absurd hat id
    have hnow := hlook half [] hat hsame
    rw [List.append_nil] at hnow
    exact hnow
  | shutsRead hw hr =>
    refine h.course_of_reshutting_read hc hw hr fun w hshut => ?_
    rw [← hc.1] at hshut
    have hgranted : s.world.Traces t.task [.shut secondLink .read none] s₁.world := by
      cases h with
      | passes hpass => cases hpass
      | reshutsRead hshut' =>
        rw [hc.1] at hshut'
        exact .shut hshut'
      | reshutFails hshut' =>
        rw [hshut] at hshut'
        cases hshut'
    exact hlook .write _ rfl hgranted
  | shutsWrite hw hr hs => exact h.course_of_reshutting_write hc hw hr hs
  | answers hw hr hs => exact h.course_of_answering hc hw hr hs

end Steps

end Redial.Stream
