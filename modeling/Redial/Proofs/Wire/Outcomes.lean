import Redial.Proofs.Task.Settling
import Redial.Proofs.Wire.Calls

/-!
# Outcomes of writes that are still to come

The outcomes of writes that the scripts hold, on connections that have been made and on those that
dials will make (`World.outcomesLeft`). Only a write takes one from them, and a write that is
interrupted always does. So a loop that writes the same bytes again after an interruption comes to
an end: each step of a call on a connection lowers the outcomes that are left, or the work that is
(`BareCall.Effect.lowers`).
-/

namespace Redial

/-! ## One connection -/

namespace Link

variable {l l' : Link} {opened : List Gate}

theorem writes_shut {half : Half} {r : ShutAnswer} (h : l.shut opened half = some (l', r)) :
    l'.writes = l.writes := by
  obtain ⟨answers, rfl⟩ := shut_changes h
  cases r <;> cases half <;> rfl

theorem writes_close (l : Link) : l.close.1.writes = l.writes := by
  unfold close
  split <;> rfl

end Link

/-! ## The world -/

namespace World

/-- The outcomes of a dial call, or of the connection that it has made. -/
theorem scriptedWrites_cons (d : Gated DialScript) (ds : List (Gated DialScript))
    (l : Option Link) (ls : List (Option Link)) :
    scriptedWrites (d :: ds) (l :: ls) =
      (match l with
        | some l => l.writes.length
        | none => d.item.answer.toOption.elim 0 (·.writes.length)) + scriptedWrites ds ls := by
  cases l with
  | none => rw [scriptedWrites]
  | some l => rw [scriptedWrites]

theorem scriptedWrites_set {ls : List (Option Link)} {i : LinkId} {l : Link}
    (h : ls[i]?.join = some l) (ds : List (Gated DialScript)) (l' : Link) :
    scriptedWrites ds (ls.set i (some l')) + l.writes.length =
      scriptedWrites ds ls + l'.writes.length := by
  induction ls generalizing i ds with
  | nil => cases h
  | cons l₀ ls ih =>
    cases i with
    | zero =>
      cases h
      cases ds with
      | nil =>
        simp only [List.set_cons_zero, scriptedWrites, Option.elim_some]
        omega
      | cons d ds =>
        simp only [List.set_cons_zero, scriptedWrites_cons]
        omega
    | succ i =>
      have hrest : ∀ ds, scriptedWrites ds (ls.set i (some l')) + l.writes.length =
          scriptedWrites ds ls + l'.writes.length := fun ds => ih (i := i) h ds
      cases ds with
      | nil =>
        have hrest := hrest []
        simp only [List.set_cons_succ, scriptedWrites]
        omega
      | cons d ds =>
        have hrest := hrest ds
        simp only [List.set_cons_succ, scriptedWrites_cons]
        omega

/-- A connection that a dial makes begins with the outcomes of its script. -/
theorem scriptedWrites_dialled {ls : List (Option Link)} {ds : List (Gated DialScript)} {i : LinkId}
    {g : Gated DialScript} {script : LinkScript} (hl : ls[i]? = some none) (hd : ds[i]? = some g)
    (hs : g.item.answer = .ok script) :
    scriptedWrites ds (ls.set i (some (.ofScript script))) = scriptedWrites ds ls := by
  induction ls generalizing i ds with
  | nil => cases hl
  | cons l₀ ls ih =>
    cases ds with
    | nil => cases hd
    | cons d ds =>
      cases i with
      | zero =>
        cases hl
        cases hd
        simp only [List.set_cons_zero, scriptedWrites_cons, hs]
        rfl
      | succ i =>
        have hrest : scriptedWrites ds (ls.set i (some (.ofScript script))) =
            scriptedWrites ds ls := ih hl hd
        simp only [List.set_cons_succ, scriptedWrites_cons]
        rw [hrest]

/-- A dial call that has not ended holds the outcomes of its script. -/
theorem scriptedWrites_append_none (ds : List (Gated DialScript)) (ls : List (Option Link)) :
    scriptedWrites ds (ls ++ [none]) = scriptedWrites ds ls := by
  induction ls generalizing ds with
  | nil =>
    cases ds with
    | nil => simp [scriptedWrites]
    | cons d ds => simp [scriptedWrites]
  | cons l ls ih =>
    cases ds with
    | nil => simp only [List.cons_append, scriptedWrites, ih]
    | cons d ds => simp only [List.cons_append, scriptedWrites_cons, ih]

/-- How many outcomes of writes the scripts still hold. -/
def outcomesLeft (w : World) : Nat := scriptedWrites w.dials w.links

variable {w w' : World} {i : LinkId}

@[simp] theorem outcomesLeft_enter (w : World) (e : Event) :
    (w.enter e).outcomesLeft = w.outcomesLeft := rfl

theorem outcomesLeft_setLink {l : Link} (h : w.link? i = some l) (l' : Link) :
    (w.setLink i l').outcomesLeft + l.writes.length = w.outcomesLeft + l'.writes.length :=
  scriptedWrites_set h w.dials l'

theorem outcomesLeft_setLink_of_same {l l' : Link} (h : w.link? i = some l)
    (hw : l'.writes = l.writes) : (w.setLink i l').outcomesLeft = w.outcomesLeft := by
  have hset := outcomesLeft_setLink h l'
  rw [hw] at hset
  exact Nat.add_right_cancel hset

theorem outcomesLeft_read {task : TaskId} {len : Nat} {r : Except Fault Bytes}
    (h : w.read i task len = some (w', r)) : w'.outcomesLeft = w.outcomesLeft := by
  obtain ⟨l, l', hl, hr, rfl⟩ := read_eq_some h
  obtain ⟨reads, rfl⟩ := Link.read_changes hr
  exact outcomesLeft_setLink_of_same hl rfl

/-- A write takes an outcome from its script, or finds none there. -/
theorem outcomesLeft_write {purpose : Purpose} {buf : Bytes} {r : Except Fault Bytes}
    (h : w.write i purpose buf = some (w', r)) :
    w'.outcomesLeft < w.outcomesLeft ∨
      (w'.outcomesLeft = w.outcomesLeft ∧ ∀ f, r = .error f → f.isInterrupted = false) := by
  obtain ⟨l, l', hl, hw, rfl⟩ := write_eq_some h
  rcases Link.write_changes hw with ⟨rfl, hf⟩ | ⟨g, hg, -⟩
  · exact Or.inr ⟨outcomesLeft_setLink_of_same hl rfl, hf⟩
  · refine Or.inl ?_
    have hset := outcomesLeft_setLink hl l'
    have hlen : l.writes.length = l'.writes.length + 1 := congrArg List.length hg
    rw [outcomesLeft_enter]
    omega

theorem outcomesLeft_write_le {purpose : Purpose} {buf : Bytes} {r : Except Fault Bytes}
    (h : w.write i purpose buf = some (w', r)) : w'.outcomesLeft ≤ w.outcomesLeft := by
  rcases outcomesLeft_write h with hlt | ⟨heq, -⟩
  · exact Nat.le_of_lt hlt
  · exact Nat.le_of_eq heq

theorem outcomesLeft_interrupted {purpose : Purpose} {buf : Bytes} {f : Fault}
    (h : w.write i purpose buf = some (w', .error f)) (hf : f.isInterrupted = true) :
    w'.outcomesLeft < w.outcomesLeft := by
  rcases outcomesLeft_write h with hlt | ⟨-, hnot⟩
  · exact hlt
  · rw [hnot f rfl] at hf
    cases hf

theorem outcomesLeft_shut {half : Half} {r : ShutAnswer} (h : w.shut i half = some (w', r)) :
    w'.outcomesLeft = w.outcomesLeft := by
  obtain ⟨l, l', hl, hs, rfl⟩ := shut_eq_some h
  exact outcomesLeft_setLink_of_same hl (Link.writes_shut hs)

theorem outcomesLeft_setDeadline (w : World) (i : LinkId) (deadline : Option Instant) :
    (w.setDeadline i deadline).outcomesLeft = w.outcomesLeft := by
  cases hl : w.link? i with
  | none =>
    unfold setDeadline
    rw [hl]
  | some l =>
    rw [setDeadline_of_link? hl]
    exact outcomesLeft_setLink_of_same hl rfl

/-- A dial call that succeeds makes the connection that its script says. -/
theorem dialled_script {link : LinkId} (h : w.dialled i = some (w', .ok link)) :
    ∃ g script now, link = i ∧ w.dials[i]? = some g ∧ g.item.answer = .ok script ∧
      w' = (({ w with now := now } : World).setLink i (.ofScript script)).enter (.connected i) := by
  unfold dialled at h
  split at h
  · cases h
  · rename_i g hg
    split at h
    · unfold connect at h
      split at h
      · cases h
      · rename_i script hscript
        cases h
        exact ⟨g, script, _, rfl, hg, hscript, rfl⟩
    · cases h

theorem outcomesLeft_dialled {r : Except Fault LinkId} (hi : w.links[i]? = some none)
    (h : w.dialled i = some (w', r)) : w'.outcomesLeft = w.outcomesLeft := by
  cases r with
  | ok link =>
    obtain ⟨g, script, now, -, hg, hs, rfl⟩ := dialled_script h
    exact scriptedWrites_dialled hi hg hs
  | error f =>
    obtain ⟨now, ⟨f', -, rfl⟩ | ⟨script, hlink, -⟩⟩ := dialled_eq_some h
    · rfl
    · cases hlink

end World

/-! ## Sources -/

theorem Source.work_cons (g : Gated Arrival) (rest : List (Gated Arrival)) :
    Source.work ⟨g :: rest⟩ = Source.itemWork g + Source.work ⟨rest⟩ := rfl

theorem Source.work_pull_ok {s s' : Source} {opened : List Gate} {len : Nat} {piece : Bytes}
    (h : s.pull opened len = some (s', .ok piece)) : s'.work + 2 * piece.length ≤ s.work := by
  obtain ⟨items⟩ := s
  cases items with
  | nil =>
    cases h
    exact Nat.le_refl _
  | cons g rest =>
    unfold Source.pull at h
    dsimp only at h
    split at h
    · split at h
      · cases h
      · rename_i bytes hitem
        have hlen : (bytes.take len).length + (bytes.drop len).length = bytes.length := by
          rw [← List.length_append, List.take_append_drop]
        have hg : Source.itemWork g = 1 + 2 * bytes.length := by
          unfold Source.itemWork
          rw [hitem]
        rw [Source.work_cons, hg]
        split at h
        · cases h
          omega
        · cases h
          rw [Source.work_cons]
          show 1 + 2 * (bytes.drop len).length + _ + _ ≤ _
          omega
    · cases h

theorem Source.work_pull_error {s s' : Source} {opened : List Gate} {len : Nat} {f : Fault}
    (h : s.pull opened len = some (s', .error f)) : s'.work < s.work := by
  obtain ⟨items⟩ := s
  cases items with
  | nil => cases h
  | cons g rest =>
    unfold Source.pull at h
    dsimp only at h
    split at h
    · split at h
      · rename_i hitem
        cases h
        have hg : Source.itemWork g = 1 := by
          unfold Source.itemWork
          rw [hitem]
        rw [Source.work_cons, hg]
        exact Nat.lt_add_of_pos_left Nat.one_pos
      · split at h <;> cases h
    · cases h

/-! ## Calls on one connection -/

namespace BareCall

variable {task : TaskId} {i : LinkId} {w w' : World} {call : BareCall}
  {p : Progress BareCall Outcome}

/-- After a write, a loop has less to write, unless the write was interrupted. -/
theorem load_afterWrite {rest : Bytes} (hrest : rest ≠ []) (r : Except Fault Bytes)
    {goOn : Nat → Bytes → BareCall} {fail : Fault → Outcome} {base : Nat}
    (hwork : ∀ n rest, (goOn n rest).work = rest.length + base) :
    (afterWrite rest r goOn fail).load work < rest.length + base ∨
      ∃ f, r = .error f ∧ f.isInterrupted = true ∧
        (afterWrite rest r goOn fail).load work = rest.length + base := by
  have hpos : 0 < rest.length := List.length_pos_of_ne_nil hrest
  rcases afterWrite_cases rest r goOn fail with
    ⟨bytes, -, hne, hgo⟩ | ⟨f, hr, hf, hgo⟩ | ⟨f, -, hdone⟩
  · have hbytes : 0 < bytes.length := List.length_pos_of_ne_nil hne
    left
    rw [hgo]
    show (goOn _ _).work < _
    rw [hwork, List.length_drop]
    omega
  · right
    rw [hgo]
    exact ⟨f, hr, hf, hwork 0 rest⟩
  · left
    rw [hdone]
    exact Nat.add_pos_left hpos base

/-- A step of a call leaves less to do, unless it is a write that was interrupted. -/
theorem Effect.works (h : Effect task i w call w' p) :
    p.load work < call.work ∨ ∃ rest f, w.write i (.call task) rest = some (w', .error f) ∧
      f.isInterrupted = true ∧ p.load work = call.work := by
  cases h with
  | reads | writes | shuts | endsAll => exact Or.inl Nat.one_pos
  | @writesAll rest w' r hrest h =>
    have hwork : ∀ (_ : Nat) (rest : Bytes), (writeAll rest).work = rest.length + 1 :=
      fun _ _ => rfl
    rcases load_afterWrite hrest r hwork with hlt | ⟨f, rfl, hf, heq⟩
    · exact Or.inl hlt
    · exact Or.inr ⟨rest, f, h, hf, heq⟩
  | pullsEnd | pullFault => exact Or.inl (Nat.succ_pos _)
  | @pulls copied source source' piece h hpiece =>
    have hpos : 0 < piece.length := List.length_pos_of_ne_nil hpiece
    have hpull := Source.work_pull_ok h
    left
    show piece.length + source'.work + 1 < 0 + source.work + 1
    omega
  | @pullInterrupted copied source source' f h hf =>
    have hpull := Source.work_pull_error h
    left
    show 0 + source'.work + 1 < 0 + source.work + 1
    omega
  | @copies copied source rest w' r hrest h =>
    have hwork : ∀ (n : Nat) (rest : Bytes),
        (copy (copied + n) source rest).work = rest.length + (source.work + 1) := fun _ _ => rfl
    rcases load_afterWrite hrest r hwork with hlt | ⟨f, rfl, hf, heq⟩
    · exact Or.inl hlt
    · exact Or.inr ⟨rest, f, h, hf, heq⟩

theorem Effect.outcomesLeft_le (h : Effect task i w call w' p) :
    w'.outcomesLeft ≤ w.outcomesLeft := by
  cases h with
  | reads h => exact Nat.le_of_eq (World.outcomesLeft_read h)
  | writes h | writesAll _ h | copies _ h => exact World.outcomesLeft_write_le h
  | shuts h => exact Nat.le_of_eq (World.outcomesLeft_shut h)
  | _ => exact Nat.le_refl _

/-- A step of a call leaves less to do, or fewer outcomes to come. -/
theorem Effect.lowers (h : Effect task i w call w' p) :
    w'.outcomesLeft + p.load work < w.outcomesLeft + call.work := by
  have hle := h.outcomesLeft_le
  rcases h.works with hlt | ⟨rest, f, hw, hf, heq⟩
  · omega
  · have hlt := World.outcomesLeft_interrupted hw hf
    omega

/-- What the calls on a connection can still do. -/
def rank (m : Machine World BareCall Outcome) : Nat :=
  m.env.outcomesLeft + Machine.load work m.tasks

/-- The calls on a connection run until they are blocked or done. -/
theorem ranked (i : LinkId) : Machine.Ranked (behaviour i) (fun m => m.pending.Nodup) rank where
  stays hn hk := by
    obtain ⟨c, w, p, -, -, rfl⟩ := Machine.step_eq_some hk
    exact hn.sublist (Machine.pending_advance_sublist _ _ _ _)
  lowers := by
    intro m m' k hn hk
    obtain ⟨c, w, p, hc, hstep, rfl⟩ := Machine.step_eq_some hk
    have hlowers := (effect_of_step hstep).lowers
    have hload := Machine.load_advance work hn hc w p
    unfold rank
    rw [Machine.env_advance]
    omega

theorem rank_le (i : LinkId) (m : Machine World BareCall Outcome) :
    rank m ≤ (behaviour i).effort m.env (m.tasks.map (·.call)) := by
  have heffort : (behaviour i).effort m.env (m.tasks.map (·.call)) =
      Machine.load work m.tasks + (m.env.outcomesLeft + 1) := Machine.foldr_weights work _ _
  rw [heffort]
  unfold rank
  omega

end BareCall

end Redial
