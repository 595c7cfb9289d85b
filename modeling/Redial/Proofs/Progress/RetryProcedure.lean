import Redial.Proofs.Delivery.Inbound
import Redial.Proofs.Delivery.Pieces
import Redial.Proofs.Progress.Blocked
import Redial.Proofs.Progress.Completion
import Redial.Proofs.Stream.RetryCourse

/-!
# The retry procedure

From the step in which a read brings a fault to the lock, while the question is open and no retry
has been attempted, the read follows the course of a retry, one call after the other, whatever other
tasks do in the meantime (`Moment.Course`). They cannot make calls of their own then, apart from
reads that were begun before; but they may ask to shut a half at any time, and the retry looks for
that twice (`Moment.Looked`).
-/

namespace Redial

namespace Stream

/-- How much a read asks for, wherever it is before it goes to a final connection. -/
def Call.readLen? : Call → Option Nat
  | start (.read len) => some len
  | queued (.locate len) => some len
  | reading _ len => some len
  | queued (.judge _ len _) => some len
  | redialling len _ => some len
  | replaying len _ _ _ => some len
  | reshutting len _ => some len
  | answering len => some len
  | _ => none

/-- The fault that a read has brought to the lock. -/
def Call.brought? : Call → Option Fault
  | queued (.judge _ _ (.error f)) => some f
  | _ => none

theorem Call.eq_judge {c : Call} {len : Nat} {f : Fault} (hl : c.readLen? = some len)
    (hf : c.brought? = some f) : ∃ link, c = queued (.judge link len (.error f)) := by
  unfold Call.brought? at hf
  split at hf
  · cases hl
    cases hf
    exact ⟨_, rfl⟩
  · cases hf

section Steps

variable {k j : TaskId} {s s₁ : State} {c c' d : Call} {p : Progress Call Outcome} {len : Nat}

/-! ## How much a read asks for -/

theorem Resumes.readLen? (h : Resumes s c) : c.readLen? = none := by
  cases h <;> rfl

theorem WriteHalfNext.readLen? (h : WriteHalfNext s len c) : c.readLen? = some len := by
  cases h <;> rfl

theorem Passes.readLen? (h : Passes k s c p) (hp : p = .goesOn c') (hl : c'.readLen? = some len) :
    c.readLen? = some len := by
  cases h with
  | beginWrite | beginWriteAll | pullPiece =>
    rw [(resumes_offer hp).readLen?] at hl
    cases hl
  | @replayed len' cut =>
    rcases afterReplay_cases s len' with ⟨-, ha⟩ | ⟨-, ha⟩
    · rw [ha] at hp
      cases hp
      exact hl
    · rw [ha] at hp
      rw [(writeHalfNext_of_reshutWrite hp).readLen?] at hl
      exact hl
  | emptyWrite | emptyWriteAll | confirmEnd | bringLate | pullEnd | pullFault => cases hp
  | beginRead | locate | nextPiece =>
    cases hp
    exact hl
  | _ =>
    cases hp
    cases hl

theorem Effect.readLen? (h : Effect k s c s₁ p) (hp : p = .goesOn c')
    (hl : c'.readLen? = some len) : c.readLen? = some len := by
  cases h with
  | passes h => exact h.readLen? hp hl
  | @reads link len' w r =>
    rcases afterReading_cases s k link len' r with ⟨-, ha⟩ | ⟨-, -, ha⟩ | ⟨-, -, ha⟩
    · rw [ha] at hp
      cases hp
      cases hl
    · rw [ha] at hp
      cases hp
    · rw [ha] at hp
      cases hp
      exact hl
  | reshutsRead =>
    rw [(writeHalfNext_of_reshutWrite hp).readLen?] at hl
    exact hl
  | sends | sendsTo =>
    rw [(resumes_afterWrite hp).readLen?] at hl
    cases hl
  | @bare link call w p' =>
    cases p' with
    | done o => cases hp
    | goesOn call' =>
      cases hp
      cases hl
  | retries | redials | replays | replayInterrupted | reshutsWrite =>
    cases hp
    exact hl
  | asksShut | sendFails =>
    cases hp
    cases hl
  | _ => cases hp

/-! ## Steps of others while the lock is held -/

/-- A step of another call, while `k` has the lock and the question is open, changes nothing that
the lock guards and makes no call that counts. -/
structure State.Beside (k : TaskId) (s s₁ : State) : Prop where
  guarded : s.SameGuarded s₁
  terms : s₁.terms = s.terms
  trace : s.world.Traces k [] s₁.world

theorem State.Beside.trans {s₂ : State} (h : s.Beside k s₁) (h' : s₁.Beside k s₂) :
    s.Beside k s₂ :=
  ⟨h.guarded.trans h'.guarded, h'.terms.trans h.terms, h.trace.trans_nil h'.trace⟩

theorem State.Beside.withLock (s : State) (l : Lock) : s.Beside k (s.withLock l) :=
  ⟨.withLock s l, rfl, .refl _⟩

theorem Effect.beside (h : Effect j s d s₁ p) (hd : d.Phase s) (hopen : s.isDecided = false)
    (hj : d.holds = true → s.memory.lock.holder? = some j)
    (hk : s.memory.lock.holder? = some k) (hkj : k ≠ j) : s.Beside k s₁ := by
  rcases h.aside hd hopen hj hk hkj with rfl | ⟨half, rfl⟩ | ⟨link, len, w, r, -, hr, rfl⟩
  · exact ⟨.refl _, rfl, .refl _⟩
  · cases half <;> exact ⟨.askShut s _, rfl, .refl _⟩
  · exact ⟨.withWorld s w, rfl, .read_of_ne (Ne.symm hkj) hr⟩

/-! ## The start of a retry -/

theorem traces_retryWorld (s : State) (l : Link) (cause : Fault) :
    s.world.Traces k [.closed s.memory.current l.close.2, .dialling s.terms.destination]
      (retryWorld s l cause) := by
  refine ⟨retryEntries s l cause, rfl, ?_⟩
  unfold retryEntries closingEntries
  cases l.close.2 <;> rfl

/-- A read that brings a fault starts the retry: the connection in use is closed, and the
destination is dialled. -/
theorem Effect.begins_retry {link : LinkId} {f : Fault} {t : Retry}
    (h : Effect t.task s (.queued (.judge link t.len (.error f))) s₁ p) (hs : s.Sound)
    (hopen : s.isDecided = false) (ht : s.memory.retried = false)
    (hdest : s.terms.destination = t.destination) :
    ∃ c' calls, p = .goesOn c' ∧ (∀ looks, t.Comes looks calls c') ∧
      s.world.Traces t.task calls s₁.world ∧ s₁.memory.hello = s.memory.hello ∧
        s₁.memory.retried = true := by
  have hcur := hs.current_eq_first ht
  cases h with
  | passes hpass =>
    cases hpass with
    | bringLate _ hd =>
      rw [hopen] at hd
      cases hd
  | settlesOnFault _ ht' =>
    rw [ht] at ht'
    cases ht'
  | retries =>
    obtain ⟨l, hl⟩ := hs.current_isSome
    have hdial : s.world.links.length = secondLink := by
      rw [hs.dials, ht]
      rfl
    have htrace := traces_retryWorld (k := t.task) s l f
    rw [hcur, hdest] at htrace
    rw [beginRetry_eq hl, hdial]
    exact ⟨_, _, rfl, fun _ => .dials, htrace, rfl, rfl⟩

end Steps

end Stream

namespace StreamSession

open Redial.Stream

variable {rule : Rule} {setup : Setup} {m m' m'' : Moment} {k : TaskId} {c : Call} {len : Nat}

/-- A read asks for as much as was asked for in the step that started it. -/
theorem Reachable.asked_read (h : Reachable rule setup m) (hk : ⟨k, c⟩ ∈ m.machine.tasks)
    (hc : c.readLen? = some len) : m.actions[k]? = some (.call (.read len)) := by
  refine Reachable.induction
    (P := fun m => ∀ k c, ⟨k, c⟩ ∈ m.machine.tasks → ∀ len, Call.readLen? c = some len →
      m.actions[k]? = some (.call (.read len))) h ?_ ?_ k c hk len hc
  · intro s _ k c hk
    exact absurd hk List.not_mem_nil
  · intro m m' _ ih hn j d hj len hlen
    rcases hn.split with ⟨action, machine, -, ha, rfl⟩ | ⟨k, c, s, p, hk, hstep, rfl⟩
    · rcases ha.mem_tasks hj with hj | ⟨request, rfl, rfl, rfl⟩
      · have hold := ih j d hj len hlen
        exact (List.getElem?_append_left (List.getElem?_eq_some_iff.mp hold).1).trans hold
      · cases request with
        | read len' =>
          cases hlen
          exact List.getElem?_concat_length
        | _ => cases hlen
    · obtain ⟨s₁, l, he, -, rfl⟩ := does_of_step hstep
      rcases Machine.mem_advance hj with ⟨c', hgo, hc'⟩ | ⟨hj, -⟩
      · cases hc'
        exact ih _ c hk len (he.readLen? hgo hlen)
      · exact ih j d hj len hlen

/-- While the question is open, the holder of the lock stays where it is until it is dropped or
takes a step, and nothing happens that counts. -/
theorem Moment.Next.beside (hn : m.Next rule m') (h : Reachable rule setup m)
    (hk : ⟨k, c⟩ ∈ m.machine.tasks) (hholder : m.state.memory.lock.holder? = some k)
    (hopen : m.state.isDecided = false) :
    (⟨k, c⟩ ∈ m'.machine.tasks ∧ m'.state.memory.lock.holder? = some k ∧
      m.state.Beside k m'.state) ∨
    m'.actions = m.actions ++ [.cancel k] ∨ m.Moves k m' := by
  cases hn with
  | act action allowed =>
    have ha := acts_act m action
    rcases ha.keeps hk with hk' | rfl
    · refine Or.inl ⟨hk', ?_⟩
      unfold Moment.state
      generalize (m.act action).machine = machine at ha hk'
      cases ha with
      | starts request => exact ⟨hholder, .refl _, rfl, .refl _⟩
      | happens action => exact ⟨hholder, .withWorld _ _, rfl,
        .of_same (enters_change _ action).journal⟩
      | drops j =>
        have hkj : k ≠ j := (Machine.mem_cancel_iff.mp hk').2
        rcases Machine.env_cancel Stream.behaviour m.machine j with he | ⟨he, -⟩
        · rw [he]
          exact ⟨hholder, .refl _, rfl, .refl _⟩
        · rw [he]
          exact ⟨Lock.holder?_forget_of_ne hholder hkj, .withLock _ _⟩
    · exact Or.inr (Or.inl rfl)
  | @step machine j hs =>
    by_cases hkj : k = j
    · exact Or.inr (Or.inr ⟨hkj ▸ hs, rfl⟩)
    · obtain ⟨d, s, p, hd, hstep, rfl⟩ := Machine.step_eq_some hs
      obtain ⟨s₁, l, he, hl, rfl⟩ := does_of_step hstep
      refine Or.inl ⟨Machine.mem_advance_of_ne hk hkj _ _, ?_, ?_⟩
      · rw [Moment.state_advance]
        exact hl.holder?_of_ne (h.holder hd) hholder hkj
      · rw [Moment.state_advance]
        exact (he.beside (h.phase hd) hopen (h.holder hd) hholder hkj).trans (.withLock s₁ l)

/-! ## The course of a retry -/

/-- The looks of a retry that begins at `m`, up to `m'`: by a step that leaves a place for it, the
read of task `k` looks whether a half was asked to be shut. -/
def Moment.Looked (rule : Rule) (k : TaskId) (m m' : Moment) : Looks := fun half calls asked =>
  ∃ m₁ m₂ c, m.Leads rule m₁ ∧ ⟨k, c⟩ ∈ m₁.machine.tasks ∧ c.LooksAt m₁.state half ∧
    m₁.Moves k m₂ ∧ m₂.Leads rule m' ∧ m.state.world.Traces k calls m₂.state.world ∧
    m₁.state.askedShut half = asked

theorem Moment.Looked.mono (hl : m'.Leads rule m'') :
    ∀ half calls asked, m.Looked rule k m' half calls asked →
      m.Looked rule k m'' half calls asked := by
  rintro half calls asked ⟨m₁, m₂, c, h₁, hk, hc, hmove, h₂, htrace, hasked⟩
  exact ⟨m₁, m₂, c, h₁, hk, hc, hmove, h₂.trans hl, htrace, hasked⟩

/-- A retry of task `k` that begins at `m` has ended by the step from `m₁` to `m₂`. -/
structure Moment.RetryEnds (rule : Rule) (t : Retry) (m m₁ m₂ : Moment) (r : Except Fault Bytes)
    (link : LinkId) (calls : List Event) : Prop where
  before : m.Leads rule m₁
  ends : m₁.EndsRead t.task r m₂
  trace : m.state.world.Traces t.task calls m₂.state.world
  course : t.Ends (m.Looked rule t.task m₂)
    (fun r => ∃ w, m₁.state.world.read secondLink t.task t.len = some (w, r)) calls r link
  final : m₂.state.finalLink? = some link
  stats : ∃ split, m₂.state.stats? = some ⟨m.state.memory.hello.length,
      m.state.memory.hello.chunks, split, true, m.state.terms.timeout⟩ ∧
    (split = none ↔ link = firstLink)

/-- A retry of task `k` is under way at `m'`: it has come to the place of a call, and has made
`calls`. -/
structure Moment.RetryComes (rule : Rule) (t : Retry) (m m' : Moment) (c : Call)
    (calls : List Event) : Prop where
  place : ⟨t.task, c⟩ ∈ m'.machine.tasks
  trace : m.state.world.Traces t.task calls m'.state.world
  course : t.Comes (m.Looked rule t.task m') calls c
  hello : m'.state.memory.hello = m.state.memory.hello
  terms : m'.state.terms = m.state.terms
  retried : m'.state.memory.retried = true

/-- What has become of a read that brings a fault at `m`: it has not taken a step yet, its retry is
under way, or the retry has ended. -/
inductive Moment.Course (rule : Rule) (t : Retry) (link : LinkId) (f : Fault) (m m' : Moment) :
    Prop where
  | waits (hk : ⟨t.task, .queued (.judge link t.len (.error f))⟩ ∈ m'.machine.tasks)
      (hholder : m'.state.memory.lock.holder? = some t.task)
      (hbeside : m.state.Beside t.task m'.state)
  | goesOn {c calls} (h : m.RetryComes rule t m' c calls)
  | ended {m₁ m₂ r final calls} (h : m.RetryEnds rule t m₁ m₂ r final calls)
      (hl : m₂.Leads rule m')

section Course

variable {t : Retry} {link : LinkId} {f : Fault} {calls : List Event}

/-- The question is open at every place of a retry. -/
theorem Moment.RetryComes.isDecided (hcomes : m.RetryComes rule t m' c calls)
    (h : Reachable rule setup m') : m'.state.isDecided = false := by
  have hc := h.phase hcomes.place
  cases hcomes.course with
  | dials => exact hc.2.2.2
  | replays | shutsRead | shutsWrite | answers => exact hc.2

theorem Moment.RetryComes.beside (hcomes : m.RetryComes rule t m' c calls)
    (hl : m'.Leads rule m'') (hplace : ⟨t.task, c⟩ ∈ m''.machine.tasks)
    (hb : m'.state.Beside t.task m''.state) : m.RetryComes rule t m'' c calls where
  place := hplace
  trace := hcomes.trace.trans_nil hb.trace
  course := hcomes.course.mono (Moment.Looked.mono hl)
  hello := hb.guarded.hello.trans hcomes.hello
  terms := hb.terms.trans hcomes.terms
  retried := hb.guarded.retried.trans hcomes.retried

/-- A step of the read leads to the next place of the retry, or to its end. -/
theorem Moment.RetryComes.moves (hcomes : m.RetryComes rule t m' c calls)
    (hdest : t.destination = m.state.terms.destination)
    (hhello : t.hello = m.state.memory.hello.bytes) (h : Reachable rule setup m)
    (hl : m.Leads rule m') (hmove : m'.Moves t.task m'') : m.Course rule t link f m'' := by
  have h' := h.leads hl
  obtain ⟨d, s₁, l, p, hd, he, rfl⟩ := hmove.effect
  cases Machine.call_unique h'.numbered.nodup hcomes.place hd
  have hnext : m'.Leads rule ⟨m'.actions, m'.machine.advance t.task (s₁.withLock l) p⟩ :=
    .single hmove.next
  have hstate : Moment.state ⟨m'.actions, m'.machine.advance t.task (s₁.withLock l) p⟩ =
      s₁.withLock l := Moment.state_advance _ _ _ _ _
  have hcourse := he.retry_course (h'.phase hd) hcomes.course
    ((congrArg Stream.Terms.destination hcomes.terms).trans hdest.symm)
    ((congrArg Hello.bytes hcomes.hello).trans hhello.symm) (Moment.Looked.mono hnext)
    fun half more hat htrace => ⟨m', _, c, hl, hd, hat, hmove, .refl,
      hstate.symm ▸ hcomes.trace.trans htrace, rfl⟩
  cases hcourse with
  | goesOn hp htrace hnew hkept =>
    subst hp
    refine .goesOn ⟨Machine.mem_advance_self hd, ?_, hnew, ?_, ?_, ?_⟩
    · rw [hstate]
      exact hcomes.trace.trans htrace
    · rw [hstate]
      exact hkept.trans hcomes.hello
    · rw [hstate]
      exact (he.terms h'.sound).trans hcomes.terms
    · rw [hstate]
      exact he.retried h'.sound hcomes.retried
  | @ends more r final hp htrace hends hlink hfinal =>
    subst hp
    refine .ended ⟨hl, ⟨hmove, List.mem_cons_self⟩, ?_, hends, ?_, ?_⟩ .refl
    · rw [hstate]
      exact hcomes.trace.trans htrace
    · rw [hstate]
      exact hfinal
    · refine ⟨m'.state.memory.split, ?_, ?_⟩
      · have hnow : s₁.stats? = some m'.state.statsNow := by
          rcases he.stats? h'.sound (h'.phase hd) with hsame | hnow
          · rw [State.stats?_of_open (hcomes.isDecided h')] at hsame
            have hdecided : s₁.isDecided = true := State.isDecided_iff.mpr ⟨_, hfinal⟩
            obtain ⟨d, hv⟩ := Option.isSome_iff_exists.mp hdecided
            unfold State.stats? at hsame
            rw [hv] at hsame
            cases hsame
          · exact hnow
        rw [hstate]
        refine hnow.trans ?_
        unfold State.statsNow
        rw [hcomes.hello, hcomes.retried, hcomes.terms]
      · rw [h'.split_eq_none_iff, hlink]

/-- From the step in which a read brings a fault, it follows the course of a retry. -/
theorem Moment.Course.next (hcourse : m.Course rule t link f m')
    (hopen : m.state.isDecided = false) (ht : m.state.memory.retried = false)
    (hdest : t.destination = m.state.terms.destination)
    (hhello : t.hello = m.state.memory.hello.bytes) (h : Reachable rule setup m)
    (hl : m.Leads rule m') (hn : m'.Next rule m'') :
    m.Course rule t link f m'' ∨ m''.actions = m'.actions ++ [.cancel t.task] := by
  have h' := h.leads hl
  cases hcourse with
  | waits hk hholder hbeside =>
    have hopen' := hbeside.guarded.isDecided.trans hopen
    rcases hn.beside h' hk hholder hopen' with ⟨hk', hholder', hb⟩ | hdrops | hmove
    · exact Or.inl (.waits hk' hholder' (hbeside.trans hb))
    · exact Or.inr hdrops
    · obtain ⟨d, s₁, l, p, hd, he, rfl⟩ := hmove.effect
      cases Machine.call_unique h'.numbered.nodup hk hd
      have hstate : Moment.state ⟨m'.actions, m'.machine.advance t.task (s₁.withLock l) p⟩ =
          s₁.withLock l := Moment.state_advance _ _ _ _ _
      have hdest' : m'.state.terms.destination = t.destination :=
        (congrArg Stream.Terms.destination hbeside.terms).trans hdest.symm
      obtain ⟨c', calls, rfl, hcomes, htrace, hkept, hretried⟩ :=
        he.begins_retry h'.sound hopen' (hbeside.guarded.retried.trans ht) hdest'
      refine Or.inl (.goesOn ⟨Machine.mem_advance_self hd, ?_, hcomes _, ?_, ?_, ?_⟩)
      · rw [hstate]
        exact hbeside.trace.trans htrace
      · rw [hstate]
        exact hkept.trans hbeside.guarded.hello
      · rw [hstate]
        exact (he.terms h'.sound).trans hbeside.terms
      · rw [hstate]
        exact hretried
  | goesOn hcomes =>
    have hholder := h'.holder hcomes.place hcomes.course.holds
    rcases hn.beside h' hcomes.place hholder (hcomes.isDecided h') with
      ⟨hk', -, hb⟩ | hdrops | hmove
    · exact Or.inl (.goesOn (hcomes.beside (.single hn) hk' hb))
    · exact Or.inr hdrops
    · exact Or.inl (hcomes.moves hdest hhello h hl hmove)
  | ended hended hl' => exact Or.inl (.ended hended (hl'.tail hn))

/-- The retry of task `k`, whose read asks for `len` bytes, if it begins at `m`. -/
def Moment.retryOf (m : Moment) (k : TaskId) (len : Nat) : Retry :=
  ⟨k, m.state.terms.destination, m.state.memory.hello.bytes, len⟩

/-- The read follows the course of a retry until it is dropped. -/
theorem Moment.Leads.course (hl : m.Leads rule m') (h : Reachable rule setup m)
    (hk : ⟨k, .queued (.judge link len (.error f))⟩ ∈ m.machine.tasks)
    (hholder : m.state.memory.lock.holder? = some k) (hopen : m.state.isDecided = false)
    (ht : m.state.memory.retried = false) :
    m.Course rule (m.retryOf k len) link f m' ∨
      .cancel k ∈ m'.actions.drop m.actions.length := by
  induction hl with
  | refl => exact Or.inl (.waits hk hholder ⟨.refl _, rfl, .refl _⟩)
  | @tail m₁ m₂ hl hn ih =>
    rcases ih with hcourse | hdropped
    · rcases hcourse.next hopen ht rfl rfl h hl hn with hnext | hdrops
      · exact Or.inl hnext
      · exact Or.inr (Moment.Leads.mem_taken hl hdrops)
    · exact Or.inr (Moment.Leads.mem_dropped (.single hn) hdropped)

/-- A retry that is under way when no call can take a step waits for the call that it makes. -/
theorem Moment.RetryComes.waitsOutside (hcomes : m.RetryComes rule t m' c calls)
    (h : Reachable rule setup m') (hq : m'.Quiet) : c.WaitsOutside t.task m'.state := by
  rcases Call.waits_of_blocked (hq.step_eq_none h hcomes.place) with hqueued | hawaits | hout
  · cases hcomes.course <;> cases hqueued
  · cases hcomes.course <;> cases hawaits
  · exact hout

end Course

/-- A read that brings a fault while the question is open and no retry has been attempted makes the
retry, unless it is dropped. It calls, one after the other and until the first failure but that of
the closing: the closing of the connection in use; one dial of the destination; the writes of the
hello on the new connection; a request to shut the read half there, if a look then finds that it was
asked to be shut; the same for the write half; and a read for as many bytes as the caller asked for.
It ends with the first failure, which is wrapped if it is that of the dial or of a write, or else
with the result of the last read. The step that ends it settles the question, on the first
connection if the dial has failed and on the second one if not, with the figures of the retry. If no
call can take a step, it has ended, or it waits for one of these calls. -/
theorem retry_procedure {setup : Setup} {m m' : Moment} {k : TaskId} {link : LinkId} {len : Nat}
    {f : Fault} (h : Reachable anything setup m)
    (hk : ⟨k, .queued (.judge link len (.error f))⟩ ∈ m.machine.tasks)
    (hholder : m.state.memory.lock.holder? = some k) (hopen : m.state.isDecided = false)
    (ht : m.state.memory.retried = false) (hl : m.Leads anything m')
    (hkept : .cancel k ∉ m'.actions.drop m.actions.length) :
    m.actions[k]? = some (.call (.read len)) ∧
    ((⟨k, .queued (.judge link len (.error f))⟩ ∈ m'.machine.tasks ∧
        m.state.Beside k m'.state ∧ ¬m'.Quiet) ∨
      (∃ c calls, m.RetryComes anything (m.retryOf k len) m' c calls ∧
        (m'.Quiet → c.WaitsOutside k m'.state)) ∨
      ∃ m₁ m₂ r final calls, m.RetryEnds anything (m.retryOf k len) m₁ m₂ r final calls ∧
        m₂.Leads anything m' ∧ (final = firstLink ↔ ∃ g, .dialFailed g ∈ calls) ∧
        ∀ g failed, r = .error g → g.retryFault? = some failed → g.kind = failed.cause.kind) := by
  refine ⟨h.asked_read hk rfl, ?_⟩
  have h' := h.leads hl
  rcases (hl.course h hk hholder hopen ht).resolve_right hkept with
    ⟨hk', hholder', hbeside⟩ | ⟨hcomes⟩ | ⟨hends, hl'⟩
  · refine Or.inl ⟨hk', hbeside, fun hq => ?_⟩
    obtain ⟨j, -, -, hj, hjk, -⟩ := hq.holder h' hk'
    rw [hholder'] at hj
    exact hjk (Option.some.inj hj).symm
  · exact Or.inr (Or.inl ⟨_, _, hcomes, hcomes.waitsOutside h'⟩)
  · refine Or.inr (Or.inr ⟨_, _, _, _, _, hends, hl', hends.course.link_iff, ?_⟩)
    intro g failed _ hwraps
    cases g with
    | plain => cases hwraps
    | retry step cause =>
      cases hwraps
      rfl

set_option synthInstance.maxSize 400 in
/-- A retry that finds the write half asked to be shut is answered on the second connection. -/
theorem retry_procedure_after_shut : ∃ m m' m₁ m₂ r final calls,
    Reachable anything resetSession m ∧ m.state.askedShut .write = true ∧
    m.RetryEnds anything (m.retryOf 2 4) m₁ m₂ r final calls ∧ m₂.Leads anything m' ∧
    m'.returned = [(2, [9])] := by
  have hm : ∃ m₀, resetSession.played [.call (.write [1, 2, 3]), .call (.shut .write)] = some m₀ ∧
      ∃ m₁ ∈ (m₀.act (.call (.read 4))).move? 2, ∃ m₂ ∈ m₁.move? 2, ∃ m ∈ m₂.move? 2,
        (∃ t ∈ m.machine.tasks, t.id = 2 ∧ t.call.readLen? = some 4 ∧
          t.call.brought? = some (.ofKind .connectionReset)) ∧
        m.state.memory.lock.holder? = some 2 ∧ m.state.isDecided = false ∧
        m.state.memory.retried = false ∧ m.state.askedShut .write = true ∧
        ((m.next .idle).next reply).actions.drop m.actions.length = [.idle, reply] ∧
        (∃ o ∈ ((m.next .idle).next reply).machine.finished, o.1 = 2) ∧
        ((m.next .idle).next reply).returned = [(2, [9])] := by
    refine ⟨_, rfl, ?_⟩
    decide +kernel
  obtain ⟨m₀, hplayed, m₁, hfirst, m₂, hsecond, m, hthird, ⟨⟨_, c⟩, hk, rfl, hlen, hfault⟩, hholder,
    hopen, ht, hshut, hactions, ⟨⟨_, o⟩, ho, rfl⟩, hread⟩ := hm
  obtain ⟨link, rfl⟩ := Call.eq_judge hlen hfault
  have h₀ : Reachable anything resetSession (m₀.act (.call (.read 4))) :=
    (reachable_of_played (Setup.keeps_anything _ _) hplayed).leads (.single (.act _ trivial))
  have hl : (m₀.act (.call (.read 4))).Leads anything m :=
    .tail (.tail (.single (Moment.moves_of_move? hfirst).next) (Moment.moves_of_move? hsecond).next)
      (Moment.moves_of_move? hthird).next
  have h := h₀.leads hl
  have hl' : m.Leads anything ((m.next .idle).next reply) :=
    (Moment.leads_next trivial).trans (Moment.leads_next trivial)
  have h' := h.leads hl'
  have hkept : .cancel 2 ∉ ((m.next .idle).next reply).actions.drop m.actions.length := by
    rw [hactions]
    decide
  obtain ⟨-, hcourse⟩ := retry_procedure h hk hholder hopen ht hl' hkept
  rcases hcourse with ⟨hk', -⟩ | ⟨c, calls, hcomes, -⟩ | ⟨n₁, n₂, r, final, calls, hends, hl'', -⟩
  · exact absurd ho (h'.unfinished hk' _)
  · exact absurd ho (h'.unfinished hcomes.place _)
  · exact ⟨m, _, n₁, n₂, r, final, calls, h, hshut, hends, hl'', hread⟩

end StreamSession

end Redial
