import Redial.Proofs.Delivery.Interruptions
import Redial.Proofs.Wire.Outcomes

/-!
# Courses of calls on a connection

A call on a connection takes one step after another, and between two of them anything may happen to
the connection (`BareCall.Course`). So each step may meet a connection that answers as it likes, and
what holds of all courses of a call holds over any connection.

Writing all loses no byte and repeats none (`WritingAll`), and neither does a copy (`Copying`): an
interruption leaves what is still to be written as it was, and the first write that takes nothing or
fails for good breaks the loop off. A call takes no more steps than it has work to do and writes
that are interrupted (`Course.steps_le`).
-/

namespace Redial

/-- The fault with which a write that came to an end breaks off the loop that made it, if it
does. -/
def Event.breaks? : Event → Option Fault
  | accepted _ _ [] => some .writeZero
  | writeFailed _ _ _ f => if f.isInterrupted then none else some f
  | _ => none

/-- Whether a write was merely interrupted. -/
def Event.isInterruption : Event → Bool
  | writeFailed _ _ _ f => f.isInterrupted
  | _ => false

theorem Event.isHarmless_iff (e : Event) : e.isHarmless = true ↔ e.breaks? = none := by
  cases e with
  | accepted link purpose bytes => cases bytes <;> simp [isHarmless, breaks?]
  | writeFailed link purpose offered f =>
    cases hf : f.isInterrupted <;> simp [isHarmless, breaks?, hf]
  | _ => simp [isHarmless, breaks?]

theorem Journal.not_broken {j : Journal} (hall : ∀ e ∈ j, e.event.isHarmless = true) (f : Fault) :
    ¬∃ e ∈ j, e.event.breaks? = some f := by
  rintro ⟨e, he, hf⟩
  rw [(Event.isHarmless_iff _).mp (hall e he)] at hf
  cases hf

/-- How many writes of the call of a task were merely interrupted. -/
def Journal.interruptions (j : Journal) (k : TaskId) : Nat :=
  (j.attempts k).countP fun e => e.event.isInterruption

namespace BareCall

variable {task j : TaskId} {i : LinkId} {w w' : World} {call c : BareCall}
  {p : Progress BareCall Outcome} {n : Nat}

/-! ## Attempts -/

/-- Only its own steps change the attempts of a call. -/
theorem Effect.attempts_of_ne (h : Effect task i w call w' p) (hj : j ≠ task) :
    w'.journal.attempts j = w.journal.attempts j := by
  rcases h.tries with hrests | ⟨buf, r, hw⟩
  · exact World.attempts_of_enters hrests j
  · exact World.attempts_write_of_ne hj hw

theorem interruptions_write {buf : Bytes} {r : Except Fault Bytes}
    (h : w.write i (.call task) buf = some (w', r)) :
    w'.journal.interruptions task = w.journal.interruptions task +
      if (World.writeEvent i (.call task) buf r).isInterruption then 1 else 0 := by
  unfold Journal.interruptions
  rw [World.attempts_write h, List.countP_cons]

/-- A step of a call leaves less to do, unless it is interrupted. -/
theorem Effect.spends (h : Effect task i w call w' p) :
    p.load work + w.journal.interruptions task + 1 ≤
      call.work + w'.journal.interruptions task := by
  have hmono : w.journal.interruptions task ≤ w'.journal.interruptions task := by
    rcases h.tries with hrests | ⟨buf, r, hw⟩
    · exact Nat.le_of_eq (congrArg (List.countP _) (World.attempts_of_enters hrests task).symm)
    · rw [interruptions_write hw]
      exact Nat.le_add_right _ _
  rcases h.works with hlt | ⟨rest, f, hw, hf, heq⟩
  · omega
  · have hmore := interruptions_write hw
    have hf' : (World.writeEvent i (.call task) rest (.error f)).isInterruption = true := hf
    rw [if_pos hf'] at hmore
    omega

/-! ## The course of a call -/

/-- The call of a task on connection `i` has come to `p` by `n` steps. Between two of them the world
may change in any way, but for the attempts of the call. -/
inductive Course (task : TaskId) (i : LinkId) (call : BareCall) :
    World → Progress BareCall Outcome → Nat → Prop where
  /-- It has not begun. -/
  | start {w : World} (hnone : w.journal.attempts task = []) :
      Course task i call w (.goesOn call) 0
  /-- Something else happens. -/
  | meanwhile {w w' : World} {p n} (h : Course task i call w p n)
      (hsame : w'.journal.attempts task = w.journal.attempts task) : Course task i call w' p n
  /-- It takes a step. -/
  | step {w w' : World} {c p n} (h : Course task i call w (.goesOn c) n)
      (hs : step task i w c = some (w', p)) : Course task i call w' p (n + 1)

/-- A call takes no more steps than it has work to do and writes that are interrupted. -/
theorem Course.steps_le (h : Course task i call w p n) :
    n + p.load work ≤ call.work + w.journal.interruptions task := by
  induction h with
  | start =>
    rw [Nat.zero_add]
    exact Nat.le_add_right _ _
  | meanwhile h hsame ih =>
    unfold Journal.interruptions at *
    rw [hsame]
    exact ih
  | @step w w' c p n h hs ih =>
    have hspends := (effect_of_step hs).spends
    have hbefore : n + c.work ≤ call.work + w.journal.interruptions task := ih
    omega

/-! ## Writes of the loops -/

/-- What a write of a loop that has `rest` to write does to the attempts of its call, and what the
loop comes to. -/
inductive AfterWrite (rest : Bytes) (goOn : Nat → Bytes → BareCall) (fail : Fault → Outcome)
    (j : Journal) : Journal → Progress BareCall Outcome → Prop where
  /-- Some of the rest was taken, or none and the write was interrupted. -/
  | goesOn {e : Entered} {taken : Bytes} (htaken : taken <+: rest)
      (hsent : Journal.acknowledged (e :: j) = j.acknowledged ++ taken)
      (he : e.event.isHarmless = true) :
      AfterWrite rest goOn fail j (e :: j) (.goesOn (goOn taken.length (rest.drop taken.length)))
  /-- The write breaks the loop off, and nothing was taken. -/
  | fails {e : Entered} {f : Fault} (hsent : Journal.acknowledged (e :: j) = j.acknowledged)
      (he : e.event.breaks? = some f) : AfterWrite rest goOn fail j (e :: j) (.done (fail f))

theorem afterWrite_of_write {rest : Bytes} {r : Except Fault Bytes}
    (h : w.write i (.call task) rest = some (w', r)) (goOn : Nat → Bytes → BareCall)
    (fail : Fault → Outcome) :
    AfterWrite rest goOn fail (w.journal.attempts task) (w'.journal.attempts task)
      (afterWrite rest r goOn fail) := by
  have hsent := Journal.acknowledged_cons ⟨w.now, World.writeEvent i (.call task) rest r⟩
    (w.journal.attempts task)
  rw [World.attempts_write h]
  rcases afterWrite_cases rest r goOn fail with
    ⟨bytes, rfl, hne, hgo⟩ | ⟨f, rfl, hf, hgo⟩ | ⟨f, hr, hdone⟩
  · rw [hgo]
    refine .goesOn (World.write_isPrefix h) hsent ?_
    cases bytes with
    | nil => exact absurd rfl hne
    | cons b bs => rfl
  · rw [hgo]
    exact .goesOn List.nil_prefix hsent hf
  · rw [hdone]
    rcases hr with ⟨rfl, rfl⟩ | ⟨rfl, hf⟩
    · exact .fails (hsent.trans (List.append_nil _)) rfl
    · refine .fails (hsent.trans (List.append_nil _)) (if_neg ?_)
      rw [hf]
      exact Bool.false_ne_true

/-! ## Writing all -/

/-- What holds of a call that writes all of `buf`, after the attempts `j`. -/
inductive WritingAll (buf : Bytes) (j : Journal) : Progress BareCall Outcome → Prop where
  | goesOn {rest} (hbuf : buf = j.acknowledged ++ rest)
      (hall : ∀ e ∈ j, e.event.isHarmless = true) : WritingAll buf j (.goesOn (.writeAll rest))
  | succeeds (hsent : j.acknowledged = buf) (hall : ∀ e ∈ j, e.event.isHarmless = true) :
      WritingAll buf j (.done (.wroteAll (.ok ())))
  | fails {rest f} {e : Entered} {earlier : Journal} (hj : j = e :: earlier)
      (hbuf : buf = j.acknowledged ++ rest) (hrest : rest ≠ []) (he : e.event.breaks? = some f)
      (hall : ∀ e ∈ earlier, e.event.isHarmless = true) :
      WritingAll buf j (.done (.wroteAll (.error f)))

theorem AfterWrite.writingAll {buf rest : Bytes} {j j' : Journal}
    (h : AfterWrite rest (fun _ rest => .writeAll rest) (fun f => .wroteAll (.error f)) j j' p)
    (hrest : rest ≠ []) (hbuf : buf = j.acknowledged ++ rest)
    (hall : ∀ e ∈ j, e.event.isHarmless = true) : WritingAll buf j' p := by
  cases h with
  | @goesOn e taken htaken hsent he =>
    refine .goesOn ?_ (List.forall_mem_cons.mpr ⟨he, hall⟩)
    have happ : taken ++ rest.drop taken.length = rest := List.prefix_iff_eq_append.mp htaken
    rw [hsent, List.append_assoc, happ]
    exact hbuf
  | fails hsent he =>
    refine .fails rfl ?_ hrest he hall
    rw [hsent]
    exact hbuf

theorem Course.writingAll {buf : Bytes} (h : Course task i (.writeAll buf) w p n) :
    WritingAll buf (w.journal.attempts task) p := by
  induction h with
  | start hnone =>
    rw [hnone]
    exact .goesOn rfl fun _ he => absurd he List.not_mem_nil
  | meanwhile h hsame ih =>
    rw [hsame]
    exact ih
  | step h hs ih =>
    cases ih with
    | @goesOn rest hbuf hall =>
      cases effect_of_step hs with
      | endsAll =>
        rw [List.append_nil] at hbuf
        exact .succeeds hbuf.symm hall
      | writesAll hrest hw => exact (afterWrite_of_write hw _ _).writingAll hrest hbuf hall

/-! ## Copying -/

/-- What holds of a call that copies a source, after the attempts `j`. Of the faults of the source,
it has met those that are not in what is left. -/
inductive Copying (source : Source) (j : Journal) : Progress BareCall Outcome → Prop where
  | goesOn {copied left rest met}
      (haccounts : Copy.Accounts source j.acknowledged ⟨copied, left, rest⟩)
      (hfaults : source.faults = met ++ left.faults) (hmet : ∀ f ∈ met, f.isInterrupted = true)
      (hall : ∀ e ∈ j, e.event.isHarmless = true) :
      Copying source j (.goesOn (.copy copied left rest))
  | succeeds {left met} (hsent : j.acknowledged = source.content)
      (hfaults : source.faults = met ++ left.faults) (hmet : ∀ f ∈ met, f.isInterrupted = true)
      (hall : ∀ e ∈ j, e.event.isHarmless = true) :
      Copying source j (.done (.copied (.ok source.content.length) left))
  | fails {left met f} (hsent : j.acknowledged <+: source.content)
      (hfaults : source.faults = met ++ left.faults)
      (hwhy : (f ∈ met ∧ f.isInterrupted = false) ∨ ∃ e ∈ j, e.event.breaks? = some f) :
      Copying source j (.done (.copied (.error f) left))

theorem AfterWrite.copying {source left : Source} {copied : Nat} {rest : Bytes} {met : List Fault}
    {j j' : Journal}
    (h : AfterWrite rest (fun n rest => .copy (copied + n) left rest)
      (fun f => .copied (.error f) left) j j' p)
    (haccounts : Copy.Accounts source j.acknowledged ⟨copied, left, rest⟩)
    (hfaults : source.faults = met ++ left.faults) (hmet : ∀ f ∈ met, f.isInterrupted = true)
    (hall : ∀ e ∈ j, e.event.isHarmless = true) : Copying source j' p := by
  cases h with
  | @goesOn e taken htaken hsent he =>
    refine .goesOn ?_ hfaults hmet (List.forall_mem_cons.mpr ⟨he, hall⟩)
    rw [hsent]
    exact haccounts.writes htaken
  | @fails e f hsent he =>
    refine .fails ?_ hfaults (Or.inr ⟨e, List.mem_cons_self, he⟩)
    rw [hsent]
    exact haccounts.sent_isPrefix

theorem Course.copying {source : Source} (h : Course task i (.copy 0 source []) w p n) :
    Copying source (w.journal.attempts task) p := by
  induction h with
  | start hnone =>
    rw [hnone]
    have hfaults : source.faults = [] ++ source.faults := rfl
    refine .goesOn ⟨rfl, rfl, rfl, List.Subset.refl _⟩ hfaults ?_ ?_
    · exact fun _ hf => absurd hf List.not_mem_nil
    · exact fun _ he => absurd he List.not_mem_nil
  | meanwhile h hsame ih =>
    rw [hsame]
    exact ih
  | step h hs ih =>
    cases ih with
    | @goesOn copied left rest met haccounts hfaults hmet hall =>
      have hlen : 0 < copyLen := by decide
      cases effect_of_step hs with
      | @pullsEnd _ _ left' hpull =>
        obtain ⟨hsent, htotal, -⟩ := haccounts.ends rfl (Source.pulls_of_pull hpull hlen)
        rw [show copied = _ from htotal]
        exact .succeeds hsent (hfaults.trans (congrArg (met ++ ·) (Source.faults_of_pull hpull)))
          hmet hall
      | pulls hpull hpiece =>
        refine .goesOn (haccounts.takes rfl (Source.pulls_of_pull hpull hlen) hpiece) ?_ hmet hall
        exact hfaults.trans (congrArg (met ++ ·) (Source.faults_of_pull hpull))
      | @pullInterrupted _ _ left' f hpull hf =>
        have hmore : source.faults = (met ++ [f]) ++ left'.faults := by
          rw [hfaults, Source.faults_of_pull hpull, List.append_assoc]
        refine .goesOn (haccounts.interrupted rfl (Source.pulls_of_pull hpull hlen)) hmore ?_ hall
        intro g hg
        rcases List.mem_append.mp hg with hg | hg
        · exact hmet g hg
        · rw [List.mem_singleton.mp hg]
          exact hf
      | @pullFault _ _ left' f hpull hf =>
        have hmore : source.faults = (met ++ [f]) ++ left'.faults := by
          rw [hfaults, Source.faults_of_pull hpull, List.append_assoc]
        refine .fails haccounts.sent_isPrefix hmore (Or.inl ⟨?_, hf⟩)
        exact List.mem_append_right _ (List.mem_singleton_self f)
      | copies hrest hw => exact (afterWrite_of_write hw _ _).copying haccounts hfaults hmet hall

/-! ## What is known of the loops -/

theorem step_writeAll_eq_none {rest : Bytes} (h : (writeAll rest).step task i w = none) :
    rest ≠ [] ∧ w.write i (.call task) rest = none := by
  have hrest : rest ≠ [] := by
    rintro rfl
    cases h
  rw [step_writeAll task i w hrest, Option.map_eq_none_iff] at h
  exact ⟨hrest, h⟩

theorem step_copy_eq_none {copied : Nat} {source : Source} {rest : Bytes}
    (h : (copy copied source rest).step task i w = none) :
    rest = [] ∧ source.pull w.opened copyLen = none ∨
      rest ≠ [] ∧ w.write i (.call task) rest = none := by
  by_cases hrest : rest = []
  · subst hrest
    cases hpull : source.pull w.opened copyLen with
    | none => exact Or.inl ⟨rfl, rfl⟩
    | some t =>
      have hsome := Option.bind_eq_none_iff.mp h t hpull
      cases hsome
  · rw [step_copy task i w copied source hrest, Option.map_eq_none_iff] at h
    exact Or.inr ⟨hrest, h⟩

/-- What is known of a call that writes all of `buf` and has come to `p` by `n` steps. -/
structure WriteAllTells (task : TaskId) (i : LinkId) (buf : Bytes) (w : World)
    (p : Progress BareCall Outcome) (n : Nat) : Prop where
  /-- What has been accepted is a beginning of the buffer. -/
  sent : w.journal.sentBy task <+: buf
  /-- While it goes on, it has the rest of the buffer to write, and waits for nothing but that. -/
  goesOn : ∀ c, p = .goesOn c → c = .writeAll (buf.drop (w.journal.sentBy task).length) ∧
    (c.step task i w = none → w.journal.sentBy task ≠ buf ∧
      w.write i (.call task) (buf.drop (w.journal.sentBy task).length) = none)
  /-- It succeeds if all has been accepted, and fails if a write broke it off. -/
  done : ∀ o, p = .done o → ∃ r, o = .wroteAll r ∧
    (r = .ok () ↔ w.journal.sentBy task = buf) ∧
    ∀ f, r = .error f ↔ ∃ e ∈ w.journal.attempts task, e.event.breaks? = some f
  /-- It comes to an end unless it is interrupted again and again. -/
  steps : n ≤ buf.length + 1 + w.journal.interruptions task

/-- What is known of a call that copies `source` and has come to `p` by `n` steps. -/
structure CopyTells (task : TaskId) (i : LinkId) (source : Source) (w : World)
    (p : Progress BareCall Outcome) (n : Nat) : Prop where
  /-- What has been accepted is a beginning of what the source yields. -/
  sent : w.journal.sentBy task <+: source.content
  /-- While it goes on, it waits for nothing but the source or its write. -/
  goesOn : ∀ c, p = .goesOn c → c.step task i w = none → ∃ copied left rest,
    c = .copy copied left rest ∧ (rest = [] ∧ left.pull w.opened copyLen = none ∨
      rest ≠ [] ∧ w.write i (.call task) rest = none)
  /-- If it succeeds, all has been accepted. It succeeds unless it has met a fault of the source
  that is no interruption or a write broke it off, and fails with what did so. -/
  done : ∀ o, p = .done o → ∃ r left met, o = .copied r left ∧
    source.faults = met ++ left.faults ∧
    (∀ total, r = .ok total →
      w.journal.sentBy task = source.content ∧ total = source.content.length) ∧
    ((∃ total, r = .ok total) ↔ (∀ f ∈ met, f.isInterrupted = true) ∧
      ∀ e ∈ w.journal.attempts task, e.event.breaks? = none) ∧
    ∀ f, r = .error f → (f ∈ met ∧ f.isInterrupted = false) ∨
      ∃ e ∈ w.journal.attempts task, e.event.breaks? = some f
  /-- It comes to an end unless its writes are interrupted again and again. -/
  steps : n ≤ source.work + 1 + w.journal.interruptions task

theorem Course.writeAllTells {buf : Bytes} (h : Course task i (.writeAll buf) w p n) :
    WriteAllTells task i buf w p n := by
  have hsteps : n + p.load work ≤ buf.length + 1 + w.journal.interruptions task := h.steps_le
  have hbound : n ≤ buf.length + 1 + w.journal.interruptions task := by omega
  cases h.writingAll with
  | @goesOn rest hbuf hall =>
    have hrest : buf.drop (w.journal.sentBy task).length = rest := by
      rw [hbuf]
      exact List.drop_left
    refine ⟨hbuf ▸ List.prefix_append _ _, ?_, fun o ho => ?_, hbound⟩
    · intro c hc
      cases hc
      rw [hrest]
      refine ⟨rfl, fun hs => ?_⟩
      obtain ⟨hne, hw⟩ := step_writeAll_eq_none hs
      refine ⟨fun heq => ?_, hw⟩
      rw [heq, List.drop_length] at hrest
      exact hne hrest.symm
    · cases ho
  | succeeds hsent hall =>
    refine ⟨hsent ▸ List.prefix_rfl, fun c hc => ?_, fun o ho => ?_, hbound⟩
    · cases hc
    · cases ho
      refine ⟨_, rfl, ⟨fun _ => hsent, fun _ => rfl⟩, fun f => ⟨fun hf => ?_, fun hf => ?_⟩⟩
      · cases hf
      · exact absurd hf (Journal.not_broken hall f)
  | @fails rest f e earlier hj hbuf hrest he hall =>
    refine ⟨hbuf ▸ List.prefix_append _ _, fun c hc => ?_, fun o ho => ?_, hbound⟩
    · cases hc
    · cases ho
      refine ⟨_, rfl, ⟨fun hr => ?_, fun hsent => ?_⟩, fun g => ⟨fun hg => ?_, fun hg => ?_⟩⟩
      · cases hr
      · have hself : buf = buf ++ rest := hbuf.trans (congrArg (· ++ rest) hsent)
        exact absurd (List.self_eq_append_right.mp hself) hrest
      · cases hg
        rw [hj]
        exact ⟨e, List.mem_cons_self, he⟩
      · obtain ⟨d, hd, hg⟩ := hg
        rw [hj] at hd
        rcases List.mem_cons.mp hd with rfl | hd
        · rw [Option.some.inj (he.symm.trans hg)]
        · exact absurd ⟨d, hd, hg⟩ (Journal.not_broken hall g)

theorem Course.copyTells {source : Source} (h : Course task i (.copy 0 source []) w p n) :
    CopyTells task i source w p n := by
  have hwork : (copy 0 source []).work = source.work + 1 := by
    show 0 + source.work + 1 = _
    omega
  have hsteps := h.steps_le
  have hbound : n ≤ source.work + 1 + w.journal.interruptions task := by omega
  cases h.copying with
  | @goesOn copied left rest met haccounts hfaults hmet hall =>
    refine ⟨haccounts.sent_isPrefix, fun c hc hs => ?_, fun o ho => ?_, hbound⟩
    · cases hc
      exact ⟨copied, left, rest, rfl, step_copy_eq_none hs⟩
    · cases ho
  | @succeeds left met hsent hfaults hmet hall =>
    refine ⟨hsent ▸ List.prefix_rfl, fun c hc => ?_, fun o ho => ?_, hbound⟩
    · cases hc
    · cases ho
      refine ⟨_, left, met, rfl, hfaults, fun total htotal => ?_, ⟨fun _ => ?_, fun _ => ?_⟩, ?_⟩
      · cases htotal
        exact ⟨hsent, rfl⟩
      · exact ⟨hmet, fun e he => (Event.isHarmless_iff _).mp (hall e he)⟩
      · exact ⟨_, rfl⟩
      · intro f hf
        cases hf
  | @fails left met f hsent hfaults hwhy =>
    refine ⟨hsent, fun c hc => ?_, fun o ho => ?_, hbound⟩
    · cases hc
    · cases ho
      refine ⟨_, left, met, rfl, hfaults, fun total htotal => ?_, ⟨?_, ?_⟩, ?_⟩
      · cases htotal
      · rintro ⟨total, htotal⟩
        cases htotal
      · rintro ⟨hmet, hall⟩
        rcases hwhy with ⟨hmem, hf⟩ | ⟨e, he, hf⟩
        · cases hf.symm.trans (hmet f hmem)
        · cases hf.symm.trans (hall e he)
      · rintro g ⟨⟩
        exact hwhy

end BareCall

end Redial
