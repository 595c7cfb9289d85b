import Mathlib
import Redial.Proofs.Delivery.Courses
import Redial.Session.BareSession

/-!
# Loops over writes

The calls of a session on a bare connection take courses, whatever the script of the connection and
the steps of the session are (`BareSession.Accounted`), and after each step of the session they are
blocked or done (`BareSession.quiet_after`). What is known of all courses of the two loops is
therefore known of every session (`write_loops_exact`).
-/

namespace Redial

namespace BareSession

open Session

/-- The machine after some steps of a session. -/
def after (script : LinkScript) (actions : List Action) : BareMachine :=
  actions.zipIdx.foldl (fun m t => next m t.2 t.1) (start script)

theorem after_concat (script : LinkScript) (actions : List Action) (action : Action) :
    after script (actions ++ [action]) = next (after script actions) actions.length action := by
  unfold after
  rw [List.zipIdx_append, List.foldl_append]
  simp

/-- What has become of the call that step `k` asked for. -/
inductive Fate (actions : List Action) (m : BareMachine) (k : TaskId) (request : Request) :
    Prop where
  /-- It goes on. -/
  | goesOn {c n} (hc : ⟨k, c⟩ ∈ m.tasks)
      (h : BareCall.Course k theLink request.bare m.env (.goesOn c) n)
  /-- It is done. -/
  | done {o n} (ho : (k, o) ∈ m.finished)
      (h : BareCall.Course k theLink request.bare m.env (.done o) n)
  /-- A later step has dropped it. -/
  | dropped {j} (hj : k < j) (h : actions[j]? = some (.cancel k))

/-- What holds of the calls of a session after some steps. -/
structure Accounted (actions : List Action) (m : BareMachine) : Prop where
  numbered : m.Numbered actions.length
  finished : ∀ t ∈ m.finished, t.1 < actions.length ∧ t.1 ∉ m.pending
  unstarted : ∀ k, actions.length ≤ k → m.env.journal.attempts k = []
  fate : ∀ k request, actions[k]? = some (.call request) → Fate actions m k request

namespace Accounted

variable {actions : List Action} {m m' : BareMachine}

theorem step {j : TaskId} (h : Accounted actions m) (hs : m.step calls j = some m') :
    Accounted actions m' := by
  obtain ⟨c, w, p, hc, hstep, rfl⟩ := Machine.step_eq_some hs
  have hpending : j ∈ m.pending := List.mem_map_of_mem hc
  have hothers : ∀ k, k ≠ j →
      (m.advance j w p).env.journal.attempts k = m.env.journal.attempts k := by
    intro k hk
    rw [Machine.env_advance]
    exact (BareCall.effect_of_step hstep).attempts_of_ne hk
  have hfinished := Machine.finished_apart_advance h.numbered h.finished hc w p
  refine ⟨h.numbered.advance j w p, hfinished, fun k hk => ?_, fun k request hk => ?_⟩
  · have hne : k ≠ j := fun heq => Nat.not_lt_of_le hk (heq ▸ h.numbered.lt j hpending)
    rw [hothers k hne]
    exact h.unstarted k hk
  · cases h.fate k request hk with
    | @goesOn c' n hc' hcourse =>
      by_cases hkj : k = j
      · subst hkj
        cases Machine.call_unique h.numbered.nodup hc hc'
        have hnext : BareCall.Course k theLink request.bare (m.advance k w p).env p (n + 1) := by
          rw [Machine.env_advance]
          exact hcourse.step hstep
        cases p with
        | goesOn c' => exact .goesOn (Machine.mem_advance_self hc) hnext
        | done o => exact .done List.mem_cons_self hnext
      · exact .goesOn (Machine.mem_advance_of_ne hc' hkj w p) (hcourse.meanwhile (hothers k hkj))
    | @done o n ho hcourse =>
      have hkj : k ≠ j := fun heq => (h.finished _ ho).2 (heq ▸ hpending)
      exact .done ((Machine.finished_advance m j w p).subset ho) (hcourse.meanwhile (hothers k hkj))
    | dropped hj hcancel => exact .dropped hj hcancel

/-- What holds of the calls is kept by a step of the session that starts a call, drops one or lets
something happen. -/
theorem concat {action : Action} (h : Accounted actions m)
    (hnumbered : m'.Numbered (actions.length + 1)) (hfinished : m'.finished = m.finished)
    (hsame : ∀ k, m'.env.journal.attempts k = m.env.journal.attempts k)
    (hold : ∀ k ∈ m'.pending, k < actions.length → k ∈ m.pending)
    (hkeeps : ∀ t ∈ m.tasks, t ∈ m'.tasks ∨ action = .cancel t.id)
    (hstarts : ∀ request, action = .call request → ⟨actions.length, request.bare⟩ ∈ m'.tasks) :
    Accounted (actions ++ [action]) m' := by
  have hlen : (actions ++ [action]).length = actions.length + 1 := List.length_append
  refine ⟨hlen ▸ hnumbered, fun t ht => ?_, fun k hk => ?_, fun k request hk => ?_⟩
  · obtain ⟨hlt, hnot⟩ := h.finished t (hfinished ▸ ht)
    rw [hlen]
    exact ⟨Nat.lt_succ_of_lt hlt, fun hmem => hnot (hold t.1 hmem hlt)⟩
  · rw [hsame]
    rw [hlen] at hk
    exact h.unstarted k (Nat.le_of_succ_le hk)
  · by_cases hlt : k < actions.length
    · rw [List.getElem?_append_left hlt] at hk
      cases h.fate k request hk with
      | goesOn hc hcourse =>
        rcases hkeeps _ hc with hc | rfl
        · exact .goesOn hc (hcourse.meanwhile (hsame k))
        · exact .dropped hlt List.getElem?_concat_length
      | done ho hcourse => exact .done (hfinished ▸ ho) (hcourse.meanwhile (hsame k))
      | dropped hj hcancel =>
        have hjlt := (List.getElem?_eq_some_iff.mp hcancel).1
        exact .dropped hj ((List.getElem?_append_left hjlt).trans hcancel)
    · have hklt := (List.getElem?_eq_some_iff.mp hk).1
      rw [hlen] at hklt
      obtain rfl : k = actions.length :=
        Nat.le_antisymm (Nat.le_of_lt_succ hklt) (Nat.not_lt.mp hlt)
      cases List.getElem?_concat_length.symm.trans hk
      refine .goesOn (hstarts request rfl) (.start ?_)
      rw [hsame]
      exact h.unstarted _ (Nat.le_refl _)

theorem spawn (h : Accounted actions m) (request : Request) :
    Accounted (actions ++ [.call request]) (m.spawn actions.length request.bare) := by
  refine h.concat (h.numbered.spawn _) rfl (fun _ => rfl) (fun k hk hlt => ?_)
    (fun t ht => ?_) (fun r hr => ?_)
  · rw [Machine.pending_spawn, List.mem_append, List.mem_singleton] at hk
    exact hk.resolve_right (Nat.ne_of_lt hlt)
  · exact Or.inl (List.mem_append_left _ ht)
  · cases hr
    exact List.mem_append_right _ (List.mem_singleton_self _)

theorem cancel (h : Accounted actions m) (j : TaskId) :
    Accounted (actions ++ [.cancel j]) (m.cancel calls j) := by
  have henv : (m.cancel calls j).env = m.env := (Machine.env_cancel calls m j).elim id And.left
  refine h.concat ((h.numbered.cancel j).mono (Nat.le_succ _)) (Machine.finished_cancel _ _ _)
    (fun k => ?_) (fun k hk _ => ?_) (fun t ht => ?_) (fun request hr => ?_)
  · rw [henv]
  · obtain ⟨t, ht, rfl⟩ := List.mem_map.mp hk
    exact List.mem_map_of_mem (Machine.mem_cancel_iff.mp ht).1
  · by_cases hid : t.id = j
    · exact Or.inr (hid ▸ rfl)
    · exact Or.inl (Machine.mem_cancel_iff.mpr ⟨ht, hid⟩)
  · cases hr

theorem change {action : Action} (h : Accounted actions m)
    (ha : ∀ request, action ≠ .call request) :
    Accounted (actions ++ [action]) { m with env := action.change m.env } := by
  have hnumbered := h.numbered.mono (Nat.le_succ actions.length)
  refine h.concat ⟨hnumbered.nodup, hnumbered.lt⟩ rfl (fun k => ?_) (fun _ hk _ => hk)
    (fun t ht => Or.inl ht) (fun request hr => absurd hr (ha request))
  exact World.attempts_of_enters (StreamSession.enters_change m.env action) k

theorem act (h : Accounted actions m) (action : Action) :
    Accounted (actions ++ [action]) (act m actions.length action) := by
  cases action with
  | call request => exact h.spawn request
  | cancel j => exact h.cancel j
  | openGate | elapse | feed | describe | idle => exact h.change fun _ hr => by cases hr

theorem runs (h : Accounted actions m) (hr : m.Runs calls m') : Accounted actions m' := by
  induction hr with
  | refl => exact h
  | tail _ hs ih =>
    obtain ⟨k, hk⟩ := hs
    exact ih.step hk

end Accounted

theorem accounted_after (script : LinkScript) (actions : List Action) :
    Accounted actions (after script actions) := by
  induction actions using List.reverseRecOn with
  | nil =>
    refine ⟨⟨List.nodup_nil, ?_⟩, ?_, fun _ _ => rfl, ?_⟩
    · exact fun k hk => absurd hk List.not_mem_nil
    · exact fun t ht => absurd ht List.not_mem_nil
    · intro k request hk
      cases hk
  | append_singleton actions action ih =>
    rw [after_concat]
    exact (ih.act action).runs (Machine.runs_settle _ _)

/-- After each step of a session, all calls are blocked or done. -/
theorem quiet_after (script : LinkScript) (actions : List Action) :
    (after script actions).quiet calls = true := by
  induction actions using List.reverseRecOn with
  | nil => rfl
  | append_singleton actions action ih =>
    rw [after_concat]
    have hacc := (accounted_after script actions).act action
    exact (BareCall.ranked theLink).quiet_settle hacc.numbered.nodup (BareCall.rank_le theLink _)

/-- What has become of a call that a step of a session asked for: it is done, or it is blocked, or a
later step has dropped it. -/
theorem fate_after (script : LinkScript) {actions : List Action} {k : TaskId} {request : Request}
    (hk : actions[k]? = some (.call request)) :
    (∃ o n, (k, o) ∈ (after script actions).finished ∧
      BareCall.Course k theLink request.bare (after script actions).env (.done o) n) ∨
    (∃ c n, ⟨k, c⟩ ∈ (after script actions).tasks ∧
      BareCall.Course k theLink request.bare (after script actions).env (.goesOn c) n ∧
      c.step k theLink (after script actions).env = none) ∨
    ∃ j, k < j ∧ actions[j]? = some (.cancel k) := by
  have hacc := accounted_after script actions
  cases hacc.fate k request hk with
  | done ho h => exact Or.inl ⟨_, _, ho, h⟩
  | goesOn hc h =>
    have hblocked := Machine.step_eq_none_of_quiet (quiet_after script actions)
      hacc.numbered.nodup hc
    exact Or.inr (Or.inl ⟨_, _, hc, h, hblocked⟩)
  | dropped hj h => exact Or.inr (Or.inr ⟨_, hj, h⟩)

end BareSession

/-- Over any connection, whatever it answers and whatever else happens in between, writing all and
copying are exact; and in a session on a connection, each call takes such a course, and is done or
blocked after each step unless it has been dropped. -/
theorem write_loops_exact :
    (∀ (task : TaskId) (i : LinkId) (buf : Bytes) (w : World) (p : Progress BareCall Outcome)
      (n : Nat), BareCall.Course task i (Request.writeAll buf).bare w p n →
        BareCall.WriteAllTells task i buf w p n) ∧
    (∀ (task : TaskId) (i : LinkId) (source : Source) (w : World)
      (p : Progress BareCall Outcome) (n : Nat),
      BareCall.Course task i (Request.copy source).bare w p n →
        BareCall.CopyTells task i source w p n) ∧
    ∀ (script : LinkScript) (actions : List Session.Action) (k : TaskId) (request : Request),
      actions[k]? = some (.call request) →
      (∃ o n, (k, o) ∈ (BareSession.after script actions).finished ∧
        BareCall.Course k BareSession.theLink request.bare (BareSession.after script actions).env
          (.done o) n) ∨
      (∃ c n, ⟨k, c⟩ ∈ (BareSession.after script actions).tasks ∧
        BareCall.Course k BareSession.theLink request.bare (BareSession.after script actions).env
          (.goesOn c) n ∧
        c.step k BareSession.theLink (BareSession.after script actions).env = none) ∨
      ∃ j, k < j ∧ actions[j]? = some (.cancel k) :=
  ⟨fun _ _ _ _ _ _ h => h.writeAllTells, fun _ _ _ _ _ _ h => h.copyTells,
    fun script _ _ _ hk => BareSession.fate_after script hk⟩

/-- Two pieces with interruptions before them, an end, and more behind it. -/
def endingSource : Source :=
  ⟨[⟨none, .fault (.ofKind .interrupted)⟩, ⟨none, .data [4, 5]⟩,
    ⟨none, .fault (.ofKind .interrupted)⟩, ⟨none, .data [6]⟩, ⟨none, .data []⟩,
    ⟨none, .data [9]⟩]⟩

/-- A connection that takes what it is offered bit by bit, with interruptions, and nothing at
last. -/
def haltingScript : LinkScript :=
  { LinkScript.silent with
    writes := [.fault (.ofKind .interrupted), .atMost 2, .fault (.ofKind .interrupted), .usual,
      .fault (.ofKind .interrupted), .usual, .usual, .atMost 1, .atMost 0].map (⟨none, ·⟩) }

/-- A buffer is written in full past two interruptions, a source is copied up to its end past three,
and a write that takes nothing ends a third call half way. -/
theorem write_loops_on_halting_connection :
    let actions : List Session.Action :=
      [.call (.writeAll [1, 2, 3]), .call (.copy endingSource), .call (.writeAll [7, 8])]
    let j := (BareSession.after haltingScript actions).env.journal
    j.sentBy 0 = [1, 2, 3] ∧ j.sentBy 1 = [4, 5, 6] ∧
      j.sentBy 2 <+: [7, 8] ∧ j.sentBy 2 ≠ [7, 8] ∧
      ∃ e ∈ j.attempts 2, e.event.breaks? = some .writeZero := by
  intro actions j
  have hmachine : (BareSession.after haltingScript actions).tasks = [] ∧
      (BareSession.after haltingScript actions).finished =
        [(2, .wroteAll (.error .writeZero)), (1, .copied (.ok 3) ⟨[⟨none, .data [9]⟩]⟩),
          (0, .wroteAll (.ok ()))] := by
    cbv
  obtain ⟨htasks, hfinished⟩ := hmachine
  obtain ⟨hwriteAll, hcopy, hfate⟩ := write_loops_exact
  have hdone : ∀ k request, actions[k]? = some (.call request) →
      ∃ o n, (k, o) ∈ (BareSession.after haltingScript actions).finished ∧
        BareCall.Course k BareSession.theLink request.bare
          (BareSession.after haltingScript actions).env (.done o) n := by
    intro k request hk
    rcases hfate haltingScript actions k request hk with hdone | ⟨c, n, hc, -⟩ | ⟨i, -, hi⟩
    · exact hdone
    · rw [htasks] at hc
      cases hc
    · have hmem := List.mem_of_getElem? hi
      simp [actions] at hmem
  rw [hfinished] at hdone
  obtain ⟨o, n, ho, h⟩ := hdone 0 _ rfl
  obtain ⟨o', n', ho', h'⟩ := hdone 1 _ rfl
  obtain ⟨o'', n'', ho'', h''⟩ := hdone 2 _ rfl
  obtain rfl : o = .wroteAll (.ok ()) := by simpa using ho
  obtain rfl : o' = .copied (.ok 3) ⟨[⟨none, .data [9]⟩]⟩ := by simpa using ho'
  obtain rfl : o'' = .wroteAll (.error .writeZero) := by simpa using ho''
  obtain ⟨r, hr, hall, -⟩ := (hwriteAll _ _ _ _ _ _ h).done _ rfl
  obtain ⟨r', left, met, hr', -, hwhole, -⟩ := (hcopy _ _ _ _ _ _ h').done _ rfl
  obtain ⟨r'', hr'', hpart, hbroken⟩ := (hwriteAll _ _ _ _ _ _ h'').done _ rfl
  cases hr
  cases hr'
  cases hr''
  refine ⟨hall.mp rfl, (hwhole 3 rfl).1, (hwriteAll _ _ _ _ _ _ h'').sent, fun heq => ?_, ?_⟩
  · cases hpart.mpr heq
  · exact (hbroken .writeZero).mp rfl

end Redial
