import Redial.Proofs.Stream.Arming
import Redial.Proofs.Stream.Copies

/-!
# Copies are exact

The bytes of a source go one way: they are yielded, taken, and then accepted by connections. At each
place of a copy these three parts make up the content of the source, in order (`Copy.Accounts`),
whichever of the two loops is at work. So what has been accepted is a beginning of the content, a
copy that succeeds has sent all of it, and one that fails has lost no more than one piece
(`copy_exact`).
-/

namespace Redial

/-- What holds of a copy from `source` that has sent `sent`. -/
structure Copy.Accounts (source : Source) (sent : Bytes) (x : Copy) : Prop where
  /-- What has been sent, what has been taken and what is left make up the content of the source. -/
  content : source.content = sent ++ (x.rest ++ x.source.content)
  copied : x.copied = sent.length
  beyond : x.source.beyond = source.beyond
  faults : x.source.faults ⊆ source.faults

/-- How a copy from `source` ends that has sent `sent` and takes at most `len` bytes at a time. -/
inductive Source.CopyEnds (source : Source) (sent : Bytes) (len : Nat) :
    Except Fault Nat → Source → Prop where
  | whole (hsent : sent = source.content) :
      CopyEnds source sent len (.ok source.content.length) source.beyond
  | broken {f left pending} (hcontent : source.content = sent ++ (pending ++ left.content))
      (hbeyond : left.beyond = source.beyond) (hlen : pending.length ≤ len) :
      CopyEnds source sent len (.error f) left

/-- What a copy told when it ended. -/
def Outcome.copyResult? : Outcome → Option (Except Fault Nat)
  | copied r _ => some r
  | _ => none

theorem Outcome.eq_copied {o : Outcome} {r : Except Fault Nat} (h : o.copyResult? = some r) :
    ∃ left, o = .copied r left := by
  cases o with
  | copied r left =>
    cases h
    exact ⟨left, rfl⟩
  | _ => cases h

namespace Copy.Accounts

variable {source left : Source} {sent : Bytes} {x : Copy} {len : Nat}

theorem sent_isPrefix (h : x.Accounts source sent) : sent <+: source.content := by
  rw [h.content]
  exact List.prefix_append _ _

/-- The source yields a piece. -/
theorem takes {piece : Bytes} (h : x.Accounts source sent) (hrest : x.rest = [])
    (hpull : x.source.Pulls len left (.ok piece)) (hpiece : piece ≠ []) :
    Copy.Accounts source sent ⟨x.copied, left, piece⟩ := by
  cases hpull with
  | atEnd => exact absurd rfl hpiece
  | takes _ hle hcontent hbeyond hfaults =>
    refine ⟨?_, h.copied, hbeyond.trans h.beyond, List.Subset.trans hfaults h.faults⟩
    rw [h.content, hrest, hcontent]
    rfl

/-- A read of the source is interrupted. -/
theorem interrupted {f : Fault} (h : x.Accounts source sent) (hrest : x.rest = [])
    (hpull : x.source.Pulls len left (.error f)) :
    Copy.Accounts source sent ⟨x.copied, left, []⟩ := by
  cases hpull with
  | fails _ hcontent hbeyond hfaults =>
    refine ⟨?_, h.copied, hbeyond.trans h.beyond, List.Subset.trans hfaults h.faults⟩
    rw [h.content, hrest, hcontent]

/-- A write is accepted, in part or as a whole. -/
theorem writes {bytes : Bytes} (h : x.Accounts source sent) (hpre : bytes <+: x.rest) :
    Copy.Accounts source (sent ++ bytes)
      ⟨x.copied + bytes.length, x.source, x.rest.drop bytes.length⟩ := by
  have happ : bytes ++ x.rest.drop bytes.length = x.rest := List.prefix_iff_eq_append.mp hpre
  refine ⟨?_, ?_, h.beyond, h.faults⟩
  · have hcontent := h.content
    rw [← happ] at hcontent
    rw [hcontent]
    simp only [List.append_assoc]
  · rw [List.length_append, h.copied]

/-- The source comes to its end. -/
theorem ends (h : x.Accounts source sent) (hrest : x.rest = [])
    (hpull : x.source.Pulls len left (.ok [])) :
    sent = source.content ∧ x.copied = source.content.length ∧ left = source.beyond := by
  have hcontent := h.content
  cases hpull with
  | takes hpiece => exact absurd rfl hpiece
  | atEnd hnil hleft =>
    rw [hrest, hnil, List.append_nil, List.append_nil] at hcontent
    exact ⟨hcontent.symm, hcontent ▸ h.copied, hleft.trans h.beyond⟩

end Copy.Accounts

theorem Source.CopyEnds.sent_isPrefix {source left : Source} {sent : Bytes} {len : Nat}
    {r : Except Fault Nat} (h : source.CopyEnds sent len r left) : sent <+: source.content := by
  cases h with
  | whole hsent => exact hsent ▸ List.prefix_rfl
  | broken hcontent =>
    rw [hcontent]
    exact List.prefix_append _ _

namespace Stream

section Steps

variable {k : TaskId} {s s₁ : State} {c c' : Call} {o : Outcome} {x : Copy} {source left : Source}

/-- Where a copy goes on, the account of it is as right as before. -/
theorem CopyStep.accounts (h : CopyStep k s c x s₁ (.goesOn c'))
    (ha : x.Accounts source (s.world.journal.sentBy k))
    (hlen : x.rest.length ≤ c.pieceLen s.terms.chunkLen) :
    ∃ x', c'.copy? = some x' ∧ x'.Accounts source (s₁.world.journal.sentBy k) ∧
      x'.rest.length ≤ c'.pieceLen s.terms.chunkLen := by
  cases h with
  | stays hx hpiece hsent =>
    rw [hsent]
    refine ⟨x, hx, ha, ?_⟩
    rcases hpiece with hnil | hsame
    · rw [hnil]
      exact Nat.zero_le _
    · rw [hsame]
      exact hlen
  | takes hrest hpiece hpull hx hsame hsent =>
    rw [hsent]
    refine ⟨_, hx, ha.takes hrest hpull hpiece, ?_⟩
    rw [hsame]
    cases hpull with
    | atEnd => exact Nat.zero_le _
    | takes _ hle => exact hle
  | interrupted hrest hpull hx hsent =>
    rw [hsent]
    exact ⟨_, hx, ha.interrupted hrest hpull, Nat.zero_le _⟩
  | @writes _ bytes hpre hx hsame hsent =>
    rw [hsent]
    refine ⟨_, hx, ha.writes hpre, ?_⟩
    rw [hsame, List.length_drop]
    omega

/-- Where a copy ends, the account of it tells what it comes to. -/
theorem CopyStep.copyEnds (h : CopyStep k s c x s₁ (.done o))
    (ha : x.Accounts source (s.world.journal.sentBy k))
    (hlen : x.rest.length ≤ c.pieceLen s.terms.chunkLen) :
    ∃ r left, o = .copied r left ∧
      source.CopyEnds (s₁.world.journal.sentBy k) (c.pieceLen s.terms.chunkLen) r left := by
  have hcontent := ha.content
  cases h with
  | ends hrest hpull hsent =>
    rw [hsent]
    obtain ⟨hall, htotal, rfl⟩ := ha.ends hrest hpull
    refine ⟨_, _, rfl, ?_⟩
    rw [htotal]
    exact .whole hall
  | pullFails hrest hpull hf hsent =>
    rw [hsent]
    cases hpull with
    | fails _ hsame hbeyond =>
      refine ⟨_, _, rfl, .broken ?_ (hbeyond.trans ha.beyond) hlen⟩
      rw [hcontent, hsame]
  | stuck _ hsent =>
    rw [hsent]
    exact ⟨_, _, rfl, .broken hcontent ha.beyond hlen⟩
  | fails _ hw hs | failsBare _ hw hs =>
    have hsent := World.sentBy_writeFailed hw
    rw [hs]
    refine ⟨_, _, rfl, .broken ?_ ha.beyond hlen⟩
    rw [hcontent]
    exact congrArg (· ++ _) hsent.symm

end Steps

end Stream

namespace StreamSession

open Redial.Stream

variable {rule : Rule} {setup : Setup} {m : Moment} {k : TaskId} {source : Source}

/-- What holds of a copy from `source`, wherever its call is. -/
structure Moment.Copying (chunkLen : Nat) (m : Moment) (k : TaskId) (source : Source) : Prop where
  sent : m.journal.sentBy k <+: source.content
  calls : ∀ c, ⟨k, c⟩ ∈ m.machine.tasks → ∃ x, Call.copy? c = some x ∧
    x.Accounts source (m.journal.sentBy k) ∧ x.rest.length ≤ c.pieceLen chunkLen

/-- The account of a copy is right at its start, and kept by whatever can follow. -/
theorem Reachable.copying (h : Reachable rule setup m)
    (hasked : m.actions[k]? = some (.call (.copy source))) :
    m.Copying setup.config.chunkLen k source := by
  refine Reachable.induction (P := fun m => m.actions[k]? = some (.call (.copy source)) →
    m.Copying setup.config.chunkLen k source) h ?_ ?_ hasked
  · intro s _ hasked
    cases hasked
  · intro m m' hm ih hn hasked
    rcases hn.split with ⟨action, machine, -, ha, rfl⟩ | ⟨j, d, s, p, hj, hstep, rfl⟩
    · have hsent : Journal.sentBy (Moment.journal ⟨m.actions ++ [action], machine⟩) k =
          m.journal.sentBy k := World.sentBy_of_enters ha.enters k
      by_cases hlt : k < m.actions.length
      · have hold : m.actions[k]? = some (.call (.copy source)) :=
          (List.getElem?_append_left hlt).symm.trans hasked
        have hcopying := ih hold
        refine ⟨hsent ▸ hcopying.sent, fun c hk => ?_⟩
        rw [hsent]
        rcases ha.mem_tasks hk with hk | ⟨_, -, rfl, -⟩
        · exact hcopying.calls c hk
        · exact absurd hlt (Nat.lt_irrefl _)
      · have hnone : m.journal.sentBy k = [] := by
          unfold Journal.sentBy
          rw [hm.attempts_eq_nil (Nat.not_lt.mp hlt)]
          rfl
        rw [hnone] at hsent
        refine ⟨hsent ▸ List.nil_prefix, fun c hk => ?_⟩
        rw [hsent]
        rcases ha.mem_tasks hk with hk | ⟨request, rfl, rfl, rfl⟩
        · exact absurd (hm.numbered.lt k (List.mem_map_of_mem hk)) hlt
        · cases List.getElem?_concat_length.symm.trans hasked
          exact ⟨_, rfl, ⟨rfl, rfl, rfl, List.Subset.refl _⟩, Nat.zero_le _⟩
    · obtain ⟨s₁, l, he, -, rfl⟩ := does_of_step hstep
      have hcopying := ih hasked
      have hterms : m.state.terms.chunkLen = setup.config.chunkLen :=
        congrArg Terms.chunkLen hm.terms
      have hjournal : Moment.journal ⟨m.actions, m.machine.advance j (s₁.withLock l) p⟩ =
          s₁.world.journal := by
        unfold Moment.journal
        rw [Machine.env_advance]
        rfl
      by_cases hkj : k = j
      · subst hkj
        obtain ⟨x, hx, haccounts, hlen⟩ := hcopying.calls d hj
        rw [← hterms] at hlen
        have hcopies := he.copies hx (hterms ▸ setup.config.chunkLen_pos)
        cases p with
        | goesOn c' =>
          obtain ⟨x', hx', haccounts', hlen'⟩ := hcopies.accounts haccounts hlen
          refine ⟨hjournal ▸ haccounts'.sent_isPrefix, fun c hk => ?_⟩
          rw [hjournal]
          rcases Machine.mem_advance hk with ⟨_, hgo, hc⟩ | ⟨-, hne⟩
          · cases hgo
            cases hc
            exact ⟨x', hx', haccounts', hterms ▸ hlen'⟩
          · exact absurd rfl hne
        | done o =>
          obtain ⟨r, left, -, hends⟩ := hcopies.copyEnds haccounts hlen
          refine ⟨hjournal ▸ hends.sent_isPrefix, fun c hk => ?_⟩
          exact absurd rfl (Machine.mem_without_iff.mp hk).2
      · have hsent : s₁.world.journal.sentBy k = m.journal.sentBy k :=
          Journal.sentBy_congr ((he.tries hm.sound (hm.phase hj)).attempts_of_ne hkj)
        refine ⟨?_, fun c hk => ?_⟩
        · rw [hjournal, hsent]
          exact hcopying.sent
        · rw [hjournal, hsent]
          rcases Machine.mem_advance hk with ⟨_, -, hc⟩ | ⟨hk, -⟩
          · cases hc
            exact absurd rfl hkj
          · exact hcopying.calls c hk

/-- The call of task `k` was at `c` when a step brought it to its outcome `o`. -/
def Moment.EndedAt (rule : Rule) (setup : Setup) (m : Moment) (k : TaskId) (o : Outcome)
    (c : Call) : Prop :=
  ∃ m₀ m₁, Reachable rule setup m₀ ∧ ⟨k, c⟩ ∈ m₀.machine.tasks ∧ m₀.Moves k m₁ ∧
    (k, o) ∈ m₁.machine.finished ∧ m₁.Leads rule m

/-- A copy that is done has come to its outcome by a step of which the account of it tells the rest,
and has made no attempt since. -/
theorem Reachable.copy_ended (h : Reachable rule setup m)
    (hasked : m.actions[k]? = some (.call (.copy source))) {o : Outcome}
    (ho : (k, o) ∈ m.machine.finished) :
    ∃ c x s s₁, m.EndedAt rule setup k o c ∧ CopyStep k s c x s₁ (.done o) ∧
      x.Accounts source (s.world.journal.sentBy k) ∧
      x.rest.length ≤ c.pieceLen s.terms.chunkLen ∧
      s.terms.chunkLen = setup.config.chunkLen ∧
      s₁.world.journal.attempts k = m.journal.attempts k := by
  obtain ⟨m₀, m₁, h₀, hmove, ho₁, hl⟩ := h.ended ho
  obtain ⟨c, s₁, l, hk, he, rfl⟩ := hmove.ends h₀ ho₁
  have hlt : k < m₀.actions.length := h₀.numbered.lt k (List.mem_map_of_mem hk)
  obtain ⟨later, hlater⟩ := hl.actions
  rw [← hlater, List.getElem?_append_left hlt] at hasked
  obtain ⟨x, hx, haccounts, hlen⟩ := (h₀.copying hasked).calls c hk
  have hterms : m₀.state.terms.chunkLen = setup.config.chunkLen :=
    congrArg Terms.chunkLen h₀.terms
  rw [← hterms] at hlen
  refine ⟨c, x, m₀.state, s₁, ⟨m₀, _, h₀, hk, hmove, ho₁, hl⟩,
    he.copies hx (hterms ▸ setup.config.chunkLen_pos), haccounts, hlen, hterms, ?_⟩
  rw [hl.attempts_of_done (h₀.leads (.single hmove.next)) ho₁]
  unfold Moment.journal
  rw [Machine.env_advance]
  rfl

/-- A copy sends what its source yields before its first end, in order and nothing else: in either
loop, across a retry, and across the hand-over from one loop to the other. If it succeeds, it has
sent all of that, it tells how much it was, and it has taken nothing from behind the end. If it
fails, no more than one piece has been taken from the source and not been accepted. -/
theorem copy_exact {setup : Setup} {m : Moment} {k : TaskId} {source : Source}
    (h : Reachable anything setup m) (hasked : m.actions[k]? = some (.call (.copy source))) :
    m.journal.sentBy k <+: source.content ∧
    (∀ o, (k, o) ∈ m.machine.finished → ∃ r left, o = .copied r left) ∧
    (∀ total left, (k, .copied (.ok total) left) ∈ m.machine.finished →
      m.journal.sentBy k = source.content ∧ total = source.content.length ∧
      left = source.beyond) ∧
    (∀ f left, (k, .copied (.error f) left) ∈ m.machine.finished →
      ∃ c pending, m.EndedAt anything setup k (.copied (.error f) left) c ∧
        source.content = m.journal.sentBy k ++ (pending ++ left.content) ∧
        left.beyond = source.beyond ∧
        pending.length ≤ if c.isHandedOver then copyLen else setup.config.chunkLen) := by
  refine ⟨(h.copying hasked).sent, fun o ho => ?_, fun total left ho => ?_, fun f left ho => ?_⟩
  · obtain ⟨c, x, s, s₁, -, hstep, haccounts, hlen, -, -⟩ := h.copy_ended hasked ho
    obtain ⟨r, left, hcopied, -⟩ := hstep.copyEnds haccounts hlen
    exact ⟨r, left, hcopied⟩
  · obtain ⟨c, x, s, s₁, -, hstep, haccounts, hlen, -, hsame⟩ := h.copy_ended hasked ho
    obtain ⟨r, left', hcopied, hends⟩ := hstep.copyEnds haccounts hlen
    cases hcopied
    have hsent : m.journal.sentBy k = s₁.world.journal.sentBy k := Journal.sentBy_congr hsame.symm
    cases hends with
    | whole hwhole => exact ⟨hsent.trans hwhole, rfl, rfl⟩
  · obtain ⟨c, x, s, s₁, hat, hstep, haccounts, hlen, hterms, hsame⟩ := h.copy_ended hasked ho
    obtain ⟨r, left', hcopied, hends⟩ := hstep.copyEnds haccounts hlen
    cases hcopied
    have hsent : m.journal.sentBy k = s₁.world.journal.sentBy k := Journal.sentBy_congr hsame.symm
    cases hends with
    | @broken f left pending hcontent hbeyond hpending =>
      refine ⟨c, pending, hat, ?_, hbeyond, ?_⟩
      · rw [hsent]
        exact hcontent
      · rw [← hterms]
        exact hpending

/-- A session whose first connection is reset by its first read, and whose copies take two bytes at
a time while the question is open. -/
def smallChunkSession : Setup :=
  { resetSession with config := { Config.default with chunkLen := 2, chunkLen_pos := by decide } }

/-- Five bytes, three more once a gate is opened, an end, and a byte behind it. -/
def gatedSource : Source :=
  ⟨[⟨none, .data [1, 2, 3, 4, 5]⟩, ⟨some "more", .data [6, 7, 8]⟩, ⟨none, .data []⟩,
    ⟨none, .data [9]⟩]⟩

/-- A copy is begun on the first connection, overtaken by a retry, and handed over when the question
is settled. -/
theorem copy_exact_across_retry : ∃ m left, Reachable anything smallChunkSession m ∧
    m.actions[0]? = some (.call (.copy gatedSource)) ∧
    (0, .copied (.ok 8) left) ∈ m.machine.finished ∧
    m.journal.sentBy 0 = [1, 2, 3, 4, 5, 6, 7, 8] ∧ left = ⟨[⟨none, .data [9]⟩]⟩ ∧
    m.journal.bytesAccepted firstLink = [1, 2, 3, 4, 5] ∧
    m.journal.bytesAccepted secondLink = [1, 2, 3, 4, 5, 6, 7, 8] := by
  have hm : ∃ m, smallChunkSession.played [.call (.copy gatedSource), .call (.read 4), reply,
      .openGate "more"] = some m ∧ m.actions[0]? = some (.call (.copy gatedSource)) ∧
      (∃ t ∈ m.machine.finished, t.1 = 0 ∧ t.2.copyResult? = some (.ok 8)) ∧
      m.journal.bytesAccepted firstLink = [1, 2, 3, 4, 5] ∧
      m.journal.bytesAccepted secondLink = [1, 2, 3, 4, 5, 6, 7, 8] := by
    refine ⟨_, rfl, ?_, ?_, ?_, ?_⟩
    · decide +kernel
    · decide +kernel
    · decide +kernel
    · decide +kernel
  obtain ⟨m, hplayed, hasked, ⟨⟨_, o⟩, ho, rfl, htotal⟩, hfirst, hsecond⟩ := hm
  obtain ⟨left, rfl⟩ := Outcome.eq_copied htotal
  have h := reachable_of_played (Setup.keeps_anything _ _) hplayed
  obtain ⟨-, -, hok, -⟩ := copy_exact h hasked
  obtain ⟨hsent, -, hleft⟩ := hok 8 left ho
  exact ⟨m, left, h, hasked, ho, hsent, hleft, hfirst, hsecond⟩

end StreamSession

end Redial
