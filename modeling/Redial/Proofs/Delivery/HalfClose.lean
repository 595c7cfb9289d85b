import Redial.Proofs.Stream.Halves
import Redial.Proofs.Stream.Reader

/-!
# Half-closes across a retry

A request to shut a half is granted on the connection in use. A retry that replaces this connection
shuts the half once more on the new one, but only after the replay: a retry that ends before leaves
the half open although the request was granted. Requests that are granted afterwards count again.
There is no other way to lose a request (`Reachable.history`), and a half that was not lost carries
nothing any more (`Moment.Leads.silent`).
-/

namespace Redial

/-- Whether a call ended with bytes that went through a half. -/
def Outcome.carries : Half → Outcome → Bool
  | .read, read (.ok bytes) => bytes ≠ []
  | .write, wrote (.ok n) => 0 < n
  | _, _ => false

namespace Stream

/-- Whether a half of the final connection is shut, or the connection is closed. -/
def State.silenced (s : State) (half : Half) : Bool :=
  s.finalLink?.any fun link => s.world.isShut link half || s.world.isClosed link

section Steps

variable {k j : TaskId} {s s₁ : State} {c d : Call} {p : Progress Call Outcome} {half : Half}

theorem State.Sound.silenced_iff (h : s.Sound) (hd : s.isDecided = true) :
    s.silenced half = true ↔ s.world.isShut s.memory.current half = true ∨
      s.world.isClosed s.memory.current = true := by
  unfold State.silenced
  rw [h.finalLink?_eq hd]
  simp

/-! ## How calls end -/

/-- A call that ends without a call on a connection brings nothing, but for a read that brings its
result late. -/
theorem Passes.done {o : Outcome} (h : Passes k s c (.done o)) :
    o.grantsShut = false ∧ ((∀ half, o.carries half = false) ∨
      ∃ link len r, c = .queued (.judge link len r)) := by
  generalize hp : Progress.done (κ := Call) o = p at h
  cases h with
  | beginWrite | beginWriteAll | pullPiece =>
    obtain ⟨c', hc'⟩ := offer_goesOn _ _ _ _
    rw [hc'] at hp
    cases hp
  | replayed =>
    obtain ⟨c', hc'⟩ := afterReplay_goesOn _ _
    rw [hc'] at hp
    cases hp
  | emptyWrite | emptyWriteAll | confirmEnd | pullEnd | pullFault =>
    cases hp
    exact ⟨rfl, Or.inl fun half => by cases half <;> rfl⟩
  | bringLate =>
    cases hp
    exact ⟨rfl, Or.inr ⟨_, _, _, rfl⟩⟩
  | _ => cases hp

/-- Only requests to shut a half of the connection in use are granted. -/
theorem Effect.grants {o : Outcome} (h : Effect k s c s₁ (.done o)) (hc : c.Phase s)
    (ho : o.grantsShut = true) :
    ∃ half, c = .shutting half ∧ s.world.Shuts s.memory.current half s₁.world := by
  have hwrites : ∀ {buf r goal}, (afterWrite s k buf r goal).2 ≠ .done o := by
    intro buf r goal hdone
    rcases afterWrite_done hdone with ⟨-, rfl⟩ | ⟨r', rfl⟩ | ⟨r', left, rfl⟩ <;> cases ho
  generalize hp : Progress.done (κ := Call) o = p at h
  cases h with
  | passes h =>
    subst hp
    rw [h.done.1] at ho
    cases ho
  | @reads link len w r =>
    rcases afterReading_cases s k link len r with ⟨-, ha⟩ | ⟨-, -, ha⟩ | ⟨-, -, ha⟩
    all_goals
      rw [ha] at hp
      cases hp
    cases ho
  | @shuts half w r hw =>
    cases hp
    cases r with
    | none => exact ⟨half, rfl, World.shuts_of_granted hw⟩
    | some f => cases ho
  | @reshutsRead len =>
    rcases reshutWrite_cases s len with ⟨-, ha⟩ | ⟨-, ha⟩
    all_goals
      rw [ha] at hp
      cases hp
  | sends | sendsTo => exact absurd hp.symm hwrites
  | @bare link call w p' hw =>
    cases p' with
    | goesOn call' => cases hp
    | done o' =>
      cases hp
      rcases (BareCall.effect_of_step hw).done hc.2 with ⟨len, r, -, rfl⟩ | ⟨r, left, rfl⟩
      · cases ho
      · cases ho
  | settlesAtEnd | settlesOnBytes | settlesOnFault | redialFails | replayFails | reshutFails
  | answers =>
    cases hp
    cases ho
  | _ => cases hp

/-- Once a half of the final connection is silenced, calls bring nothing through it. -/
theorem Effect.silent {o : Outcome} (h : Effect k s c s₁ (.done o)) (hs : s.Sound)
    (hc : c.Phase s) (hplace : c.Placed s) (hd : s.isDecided = true)
    (hhalf : s.silenced half = true) : o.carries half = false := by
  have hopen : s.isDecided ≠ false := by
    rw [hd]
    decide
  have hflag := (hs.silenced_iff hd).mp hhalf
  have hlate := hc.not_provisional hd
  generalize hp : Progress.done (κ := Call) o = p at h
  cases h with
  | passes h =>
    subst hp
    rcases h.done.2 with hnone | ⟨link, len, r, rfl⟩
    · exact hnone half
    · exact absurd hplace.2 hopen
  | reads => exact absurd hplace.2 hopen
  | settlesAtEnd _ _ ho | settlesOnBytes _ ho | settlesOnFault _ _ ho => exact absurd ho hopen
  | @sendsTo link goal buf w r hw =>
    rw [hs.final link hc] at hw
    rcases afterWrite_done hp.symm with ⟨-, rfl⟩ | ⟨r', rfl⟩ | ⟨r', left, rfl⟩
    · cases half with
      | read => rfl
      | write =>
        obtain ⟨f, rfl⟩ := World.write_of_silent hflag hw
        rfl
    · cases half <;> rfl
    · cases half <;> rfl
  | shuts =>
    cases hp
    cases half <;> rfl
  | @bare link call w p' hw =>
    cases p' with
    | goesOn call' => cases hp
    | done o' =>
      cases hp
      rw [hs.final link hc.1] at hw
      rcases (BareCall.effect_of_step hw).done hc.2 with ⟨len, r, hr, rfl⟩ | ⟨r, left, rfl⟩
      · cases half with
        | write => rfl
        | read =>
          have hempty := World.read_of_silent hflag hr
          cases r with
          | error f => rfl
          | ok bytes =>
            rw [hempty bytes rfl]
            rfl
      · cases half <;> rfl
  | redialFails | replayFails | reshutFails | answers | sends => cases hlate
  | _ => cases hp

end Steps

end Stream

namespace StreamSession

open Redial.Stream

variable {rule : Rule} {setup : Setup} {m m' : Moment} {half : Half} {i : LinkId} {n : Nat}

/-- A caller's request to shut a half was granted, after the first `n` calls had ended. -/
def Moment.GrantedSince (m : Moment) (n : Nat) (half : Half) : Prop :=
  ∃ t ∈ m.machine.finishedAfter n, t.2.grantsShut = true ∧
    m.actions[t.1]? = some (.call (.shut half))

instance (m : Moment) (n : Nat) (half : Half) : Decidable (m.GrantedSince n half) :=
  inferInstanceAs (Decidable (∃ t ∈ _, _))

/-- A read is at a place where its retry has come past a half. -/
def Moment.Carries (m : Moment) (half : Half) : Prop :=
  ∃ k c, ⟨k, c⟩ ∈ m.machine.tasks ∧ Call.hasPassed half c = true

/-! ## What follows a moment -/

theorem Acts.finishedAfter {action : Session.Action} {machine : StreamMachine}
    (h : Acts m action machine) (n : Nat) :
    machine.finishedAfter n = m.machine.finishedAfter n := by
  unfold Machine.finishedAfter
  rw [h.finished]

theorem Acts.sameFlags {action : Session.Action} {machine : StreamMachine}
    (h : Acts m action machine) : m.state.world.SameFlags machine.env.world := by
  rcases h.env with ⟨l, he⟩ | he
  · rw [he]
    exact .refl _
  · rw [he]
    exact sameFlags_change _ action

theorem Moment.Next.sets (hn : m.Next rule m') (h : Reachable rule setup m) :
    m.state.world.Sets m.state.memory.current m'.state.world := by
  rcases hn.split with ⟨action, machine, -, ha, rfl⟩ | ⟨k, c, s, p, hk, hstep, rfl⟩
  · exact ha.sameFlags.sets _
  · obtain ⟨s₁, l, he, -, rfl⟩ := does_of_step hstep
    rw [Moment.state_advance]
    exact (he.flags h.sound (h.phase hk)).sets

theorem Moment.Next.grantedSince (hn : m.Next rule m') (h : Reachable rule setup m)
    (hlen : n ≤ m.machine.finished.length) (hg : m.GrantedSince n half) :
    m'.GrantedSince n half := by
  obtain ⟨t, ht, hgrants, hrequest⟩ := hg
  rcases hn.split with ⟨action, machine, -, ha, rfl⟩ | ⟨k, c, s, p, -, -, rfl⟩
  · refine ⟨t, ?_, hgrants, ?_⟩
    · show t ∈ machine.finishedAfter n
      rw [ha.finishedAfter]
      exact ht
    · have hlt := h.finished_lt (Machine.mem_of_mem_finishedAfter ht)
      exact (List.getElem?_append_left hlt).trans hrequest
  · refine ⟨t, ?_, hgrants, hrequest⟩
    exact (Machine.mem_finishedAfter_advance hlen _ _ _ _).mpr (Or.inl ht)

/-- A request is granted by shutting the half of the connection in use. -/
theorem Moment.Next.of_grantedSince (hn : m.Next rule m') (h : Reachable rule setup m)
    (hlen : n ≤ m.machine.finished.length) (hg : m'.GrantedSince n half) :
    m.GrantedSince n half ∨ m'.state.world.isShut m.state.memory.current half = true := by
  obtain ⟨t, ht, hgrants, hrequest⟩ := hg
  rcases hn.split with ⟨action, machine, -, ha, rfl⟩ | ⟨k, c, s, p, hk, hstep, rfl⟩
  · have hold : t ∈ m.machine.finishedAfter n := by
      rw [← ha.finishedAfter]
      exact ht
    have hlt := h.finished_lt (Machine.mem_of_mem_finishedAfter hold)
    rw [List.getElem?_append_left hlt] at hrequest
    exact Or.inl ⟨t, hold, hgrants, hrequest⟩
  · rcases (Machine.mem_finishedAfter_advance hlen _ _ _ _).mp ht with ht | ⟨o, rfl, rfl⟩
    · exact Or.inl ⟨t, ht, hgrants, hrequest⟩
    · obtain ⟨s₁, l, he, -, rfl⟩ := does_of_step hstep
      obtain ⟨half', rfl, hw⟩ := he.grants (h.phase hk) hgrants
      obtain ⟨request, hasked, hkind⟩ := h.requested hk
      have hrequest' : request = .shut half := by
        have heq := hasked.symm.trans hrequest
        cases heq
        rfl
      subst hrequest'
      cases hkind
      refine Or.inr ?_
      rw [Moment.state_advance]
      show s₁.world.isShut m.state.memory.current half = true
      rw [hw.isShut]
      simp

/-- A half is shut for a caller, or by a retry that has come past it. -/
theorem Moment.Next.of_isShut (hn : m.Next rule m') (h : Reachable rule setup m)
    (hnew : m'.state.world.isShut i half = true) :
    m.state.world.isShut i half = true ∨ (i = m.state.memory.current ∧
      (m'.Carries half ∨ m'.GrantedSince m.machine.finished.length half)) := by
  rcases hn.split with ⟨action, machine, -, ha, rfl⟩ | ⟨k, c, s, p, hk, hstep, rfl⟩
  · exact Or.inl ((ha.sameFlags.isShut i half).symm.trans hnew)
  · obtain ⟨s₁, l, he, -, rfl⟩ := does_of_step hstep
    rw [Moment.state_advance] at hnew
    have hnew : s₁.world.isShut i half = true := hnew
    -- The half that is shut is the one in question.
    have hshut : ∀ {half'}, m.state.world.Shuts m.state.memory.current half' s₁.world →
        m.state.world.isShut i half = true ∨ (i = m.state.memory.current ∧ half = half') := by
      intro half' hw
      rw [hw.isShut, Bool.or_eq_true] at hnew
      simpa using hnew
    cases he.flags h.sound (h.phase hk) with
    | stays hw => exact Or.inl ((hw.isShut i half).symm.trans hnew)
    | closes hw => exact Or.inl ((hw.isShut i half).symm.trans hnew)
    | @grants half' _ hw =>
      rcases hshut hw with hold | ⟨hi, rfl⟩
      · exact Or.inl hold
      · refine Or.inr ⟨hi, Or.inr ⟨(k, .shut (.ok ())), ?_, rfl, ?_⟩⟩
        · exact (Machine.mem_finishedAfter_advance (Nat.le_refl _) _ _ _ _).mpr
            (Or.inr ⟨_, rfl, rfl⟩)
        · obtain ⟨request, hasked, hkind⟩ := h.requested hk
          cases request with
          | shut half' =>
            cases hkind
            exact hasked
          | _ => cases hkind
    | @regrants len half' _ c' hw hpassed =>
      rcases hshut hw with hold | ⟨hi, rfl⟩
      · exact Or.inl hold
      · exact Or.inr ⟨hi, Or.inl ⟨k, c', Machine.mem_advance_self hk, hpassed⟩⟩

/-! ## Whole runs -/

theorem Reachable.isShut_of_granted (h : Reachable rule setup m) (hg : m.GrantedSince 0 half) :
    m.state.world.isShut firstLink half = true ∨ m.state.world.isShut secondLink half = true := by
  refine Reachable.induction (P := fun m => m.GrantedSince 0 half →
    m.state.world.isShut firstLink half = true ∨ m.state.world.isShut secondLink half = true)
    h ?_ ?_ hg
  · rintro s - ⟨t, ht, -⟩
    cases ht
  · intro m m' hm ih hn hg
    have hsets := hn.sets hm
    rcases hn.of_grantedSince hm (Nat.zero_le _) hg with hold | hnew
    · rcases ih hold with hfirst | hsecond
      · exact Or.inl (hsets.shut _ _ hfirst)
      · exact Or.inr (hsets.shut _ _ hsecond)
    · rcases hm.sound.current with hcur | ⟨hcur, -⟩
      · rw [hcur] at hnew
        exact Or.inl hnew
      · rw [hcur] at hnew
        exact Or.inr hnew

theorem not_isShut_of_opening {s : State} (h : setup.opening = .opened s) (half : Half) :
    s.world.isShut i half = false := by
  by_contra hshut
  rw [Bool.not_eq_false] at hshut
  have hasked := (recorded_of_opening h).asked i half hshut
  unfold State.askedShut at hasked
  rw [memory_of_opening h] at hasked
  cases half <;> cases hasked

/-- A half of the second connection was shut by a retry that has come past it, or for a caller while
the second connection was in use. -/
theorem Reachable.history (h : Reachable rule setup m)
    (hshut : m.state.world.isShut secondLink half = true) :
    ∃ m₁, Reachable rule setup m₁ ∧ m₁.Leads rule m ∧ (m₁.Carries half ∨
      (m₁.state.memory.current = secondLink ∧
        m.GrantedSince m₁.machine.finished.length half)) := by
  obtain ⟨s, hs, hl⟩ := h
  induction hl with
  | refl =>
    have hopen := not_isShut_of_opening (i := secondLink) hs half
    rw [show s.world.isShut secondLink half = true from hshut] at hopen
    cases hopen
  | @tail m m' hl hn ih =>
    have hm : Reachable rule setup m := ⟨s, hs, hl⟩
    rcases hn.of_isShut hm hshut with hold | ⟨hcur, hcarries | hgranted⟩
    · obtain ⟨m₁, h₁, hl₁, hcarries | ⟨hcur, hgranted⟩⟩ := ih hold
      · exact ⟨m₁, h₁, hl₁.tail hn, Or.inl hcarries⟩
      · have hsince := hn.grantedSince hm hl₁.finished.length_le hgranted
        exact ⟨m₁, h₁, hl₁.tail hn, Or.inr ⟨hcur, hsince⟩⟩
    · exact ⟨m', hm.leads (.single hn), .refl, Or.inl hcarries⟩
    · exact ⟨m, hm, .single hn, Or.inr ⟨hcur.symm, hgranted⟩⟩

theorem Moment.Leads.recovered (hl : m.Leads rule m') (h : Reachable rule setup m)
    (hcur : m.state.memory.current = secondLink) (hr : m.state.Recovered half) :
    m'.state.Recovered half := by
  induction hl with
  | refl => exact hr
  | @tail m₁ m₂ hl hn ih =>
    have hsets := hn.sets (h.leads hl)
    rw [Moment.Leads.second hl h hcur] at hsets
    intro hfirst
    rw [hsets.elsewhere firstLink half (by decide)] at hfirst
    exact hsets.shut secondLink half (ih hfirst)

theorem Moment.Leads.isShut_of_granted (hl : m.Leads rule m') (h : Reachable rule setup m)
    (hcur : m.state.memory.current = secondLink)
    (hg : m'.GrantedSince m.machine.finished.length half) :
    m'.state.world.isShut secondLink half = true := by
  induction hl with
  | refl =>
    obtain ⟨t, ht, -⟩ := hg
    rw [Machine.finishedAfter_self] at ht
    cases ht
  | @tail m₁ m₂ hl hn ih =>
    rcases hn.of_grantedSince (h.leads hl) (Moment.Leads.finished hl).length_le hg with hold | hnew
    · exact (hn.sets (h.leads hl)).shut secondLink half (ih hold)
    · rw [Moment.Leads.second hl h hcur] at hnew
      exact hnew

theorem Moment.Leads.silenced (hl : m.Leads rule m') (h : Reachable rule setup m)
    (hd : m.state.isDecided = true) (hhalf : m.state.silenced half = true) :
    m'.state.silenced half = true := by
  induction hl with
  | refl => exact hhalf
  | @tail m₁ m₂ hl hn ih =>
    have h₁ := h.leads hl
    have hd₁ : m₁.state.isDecided = true :=
      (Moment.Leads.sameGuarded hl h hd).isDecided.trans hd
    have hsame := hn.sameGuarded h₁ hd₁
    have hsets := hn.sets h₁
    rw [State.Sound.silenced_iff (h₁.leads (.single hn)).sound (hsame.isDecided.trans hd₁),
      hsame.current]
    rcases (h₁.sound.silenced_iff hd₁).mp ih with hshut | hclosed
    · exact Or.inl (hsets.shut _ _ hshut)
    · exact Or.inr (hsets.closed _ hclosed)

/-- Nothing goes through a half of the final connection that is silenced. -/
theorem Moment.Leads.silent (hl : m.Leads oneReader m') (h : Reachable oneReader setup m)
    (hd : m.state.isDecided = true) (hhalf : m.state.silenced half = true) :
    ∀ t ∈ m'.machine.finishedAfter m.machine.finished.length, t.2.carries half = false := by
  induction hl with
  | refl =>
    intro t ht
    rw [Machine.finishedAfter_self] at ht
    cases ht
  | @tail m₁ m₂ hl hn ih =>
    intro t ht
    have h₁ := h.leads hl
    have hd₁ : m₁.state.isDecided = true :=
      (Moment.Leads.sameGuarded hl h hd).isDecided.trans hd
    have hhalf₁ := Moment.Leads.silenced hl h hd hhalf
    have hlen := (Moment.Leads.finished hl).length_le
    rcases hn.split with ⟨action, machine, -, ha, rfl⟩ | ⟨k, c, s, p, hk, hstep, rfl⟩
    · rw [show Moment.machine ⟨m₁.actions ++ [action], machine⟩ = machine from rfl,
        ha.finishedAfter] at ht
      exact ih t ht
    · rcases (Machine.mem_finishedAfter_advance hlen _ _ _ _).mp ht with ht | ⟨o, rfl, rfl⟩
      · exact ih t ht
      · obtain ⟨s₁, l, he, -, rfl⟩ := does_of_step hstep
        exact he.silent h₁.sound (h₁.phase hk) (h₁.placed hk) hd₁ hhalf₁

/-- When the question is settled and a request to shut a half was granted, the half of the final
connection is shut, or the connection is closed, just if the first connection is still in use, or
the retry came past this half, or a request was granted while the second connection was in use. If
so, no later call brings bytes through the half. -/
theorem half_close_kept_iff {setup : Setup} {m : Moment} {half : Half}
    (h : Reachable oneReader setup m) (hd : m.state.isDecided = true)
    (hg : m.GrantedSince 0 half) :
    (m.state.silenced half = true ↔ m.state.memory.current = firstLink ∨
      ∃ m₁, Reachable oneReader setup m₁ ∧ m₁.Leads oneReader m ∧ (m₁.Carries half ∨
        (m₁.state.memory.current = secondLink ∧
          m.GrantedSince m₁.machine.finished.length half))) ∧
    (m.state.silenced half = true → ∀ m', m.Leads oneReader m' →
      ∀ t ∈ m'.machine.finishedAfter m.machine.finished.length, t.2.carries half = false) := by
  refine ⟨?_, fun hhalf m' hl => hl.silent h hd hhalf⟩
  rw [h.sound.silenced_iff hd]
  constructor
  · intro hhalf
    rcases h.sound.current with hcur | ⟨hcur, -⟩
    · exact Or.inl hcur
    · rw [hcur, h.recorded.spared] at hhalf
      have hshut : m.state.world.isShut secondLink half = true := by simpa using hhalf
      exact Or.inr (h.history hshut)
  · have hone := h.isShut_of_granted hg
    rintro (hcur | ⟨m₁, h₁, hl, ⟨k, c, hk, hpassed⟩ | ⟨hcur, hgranted⟩⟩)
    · -- There is no second connection.
      have hnone := h.sound.second_eq_none hcur
      have hsecond : m.state.world.isShut secondLink half = false := World.flag_of_none hnone _
      rw [hsecond] at hone
      rw [hcur]
      exact Or.inl (by simpa using hone)
    · have hrenews := Call.renews_of_hasPassed hpassed
      obtain ⟨hcur, -⟩ := (h₁.phase hk).of_renews hrenews
      rw [hl.second h₁ hcur]
      rcases hone with hfirst | hsecond
      · exact Or.inl (hl.recovered h₁ hcur (h₁.recovered hk hpassed) hfirst)
      · exact Or.inl hsecond
    · rw [hl.second h₁ hcur]
      exact Or.inl (hl.isShut_of_granted h₁ hcur hgranted)

theorem half_close_kept_after_reset : ∃ m, Reachable oneReader resetSession m ∧
    m.GrantedSince 0 .write ∧ m.state.finalLink? = some secondLink ∧
    (∃ m₁ : Moment, m₁.Leads oneReader m ∧ (m₁.Carries .write ∨
      (m₁.state.memory.current = secondLink ∧
        m.GrantedSince m₁.machine.finished.length .write))) ∧
    ∀ m', m.Leads oneReader m' →
      ∀ t ∈ m'.machine.finishedAfter m.machine.finished.length, t.2.carries .write = false := by
  have hm : ∃ m, resetSession.played [.call (.write [1, 2, 3]), .call (.shut .write),
      .call (.read 4), reply] = some m ∧ m.state.isDecided = true ∧ m.GrantedSince 0 .write ∧
      m.state.finalLink? = some secondLink ∧ m.state.memory.current ≠ firstLink ∧
      m.state.silenced .write = true := by
    refine ⟨_, rfl, ?_, ?_, ?_, ?_, ?_⟩
    · decide +kernel
    · decide +kernel
    · decide +kernel
    · decide +kernel
    · decide +kernel
  obtain ⟨m, hplayed, hd, hg, hfinal, hcur, hhalf⟩ := hm
  have h : Reachable oneReader resetSession m := reachable_of_played (by decide +kernel) hplayed
  obtain ⟨hiff, hsilent⟩ := half_close_kept_iff h hd hg
  obtain ⟨m₁, -, hl, hkept⟩ := (hiff.mp hhalf).resolve_left hcur
  exact ⟨m, h, hg, hfinal, ⟨m₁, hl, hkept⟩, hsilent hhalf⟩

/-- A session whose first connection is reset by its first read, and whose second one refuses the
first write of the replay. -/
def failedReplaySession : Setup :=
  .localhost 1
    [dialledAtOnce { LinkScript.silent with
      reads := [⟨none, .fault (.ofKind .connectionReset)⟩] },
    dialledAtOnce { LinkScript.silent with
      writes := [⟨none, .fault (.ofKind .connectionReset)⟩] }]

/-- The write half is lost in a replay that fails: the request was granted, but on the final
connection the half is open, and a later write is accepted. -/
theorem half_close_lost_in_failed_replay : ∃ m m', Reachable oneReader failedReplaySession m ∧
    m.state.isDecided = true ∧ m.GrantedSince 0 .write ∧ m.state.silenced .write = false ∧
    m.Leads oneReader m' ∧
    ∃ t ∈ m'.machine.finishedAfter m.machine.finished.length, t.2.carries .write = true := by
  have hm : ∃ m, failedReplaySession.played [.call (.write [1]), .call (.shut .write),
      .call (.read 4)] = some m ∧ m.state.isDecided = true ∧ m.GrantedSince 0 .write ∧
      m.state.silenced .write = false ∧
      ∃ t ∈ (m.next (.call (.write [2]))).machine.finishedAfter m.machine.finished.length,
        t.2.carries .write = true := by
    refine ⟨_, rfl, ?_, ?_, ?_, ?_⟩
    · decide +kernel
    · decide +kernel
    · decide +kernel
    · decide +kernel
  obtain ⟨m, hplayed, hd, hg, hhalf, hwritten⟩ := hm
  have h : Reachable oneReader failedReplaySession m :=
    reachable_of_played (by decide +kernel) hplayed
  have hallowed : oneReader m (.call (.write [2])) := trivial
  exact ⟨m, _, h, hd, hg, hhalf, Moment.leads_next hallowed, hwritten⟩

end StreamSession

end Redial
