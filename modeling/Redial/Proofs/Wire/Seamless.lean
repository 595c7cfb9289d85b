import Redial.Proofs.Wire.Trace

/-!
# Worlds without seams

What a world looks like to someone who cannot tell where the writes of a replay on `link` begin and
end, and does not read where the hello was cut: each of these writes is spelled byte by byte
(`World.seamless`). Every call but a write of a replay does the same to the world that it sees.

The views of a journal that do not show these writes do not depend on the seams, and neither do the
bytes that a connection has accepted.
-/

namespace Redial

/-- A report without the place of the cut. -/
def Notice.withoutSplit : Notice → Notice
  | replaying _ helloLen => replaying 0 helloLen
  | n => n

/-- The entries of a replay of `bytes` on a connection that takes them one by one. -/
def Journal.spelled (now : Instant) (link : LinkId) (k : TaskId) (bytes : Bytes) : Journal :=
  (bytes.map fun b => ⟨now, .accepted link (.replay k) [b]⟩).reverse

/-- What an entry looks like to someone who does not see the seams of a replay on `link`. -/
def Entered.seamless (link : LinkId) (e : Entered) : Journal :=
  match e.event with
  | .accepted l (.replay k) bytes => if l = link then Journal.spelled e.time link k bytes else [e]
  | .noticed n => [⟨e.time, .noticed n.withoutSplit⟩]
  | _ => [e]

/-- An entry is a write of a replay on `link`, or a report, or it looks as it is. -/
theorem Entered.seamless_cases (link : LinkId) (e : Entered) :
    (∃ now k bytes, e = ⟨now, .accepted link (.replay k) bytes⟩ ∧
      e.seamless link = Journal.spelled now link k bytes) ∨
    (∃ now n, e = ⟨now, .noticed n⟩ ∧ e.seamless link = [⟨now, .noticed n.withoutSplit⟩]) ∨
    e.event.notice? = none ∧ e.seamless link = [e] := by
  obtain ⟨now, event⟩ := e
  cases event with
  | accepted l purpose bytes =>
    cases purpose with
    | call k => exact Or.inr (Or.inr ⟨rfl, rfl⟩)
    | replay k =>
      by_cases hl : l = link
      · subst hl
        exact Or.inl ⟨now, k, bytes, rfl, if_pos rfl⟩
      · exact Or.inr (Or.inr ⟨rfl, if_neg hl⟩)
  | noticed n => exact Or.inr (Or.inl ⟨now, n, rfl, rfl⟩)
  | _ => exact Or.inr (Or.inr ⟨rfl, rfl⟩)

namespace Journal

/-- What a journal looks like to someone who does not see the seams of a replay on `link`. -/
def seamless (link : LinkId) (j : Journal) : Journal := j.flatMap (Entered.seamless link)

variable {link : LinkId} {j : Journal}

theorem spelled_append (now : Instant) (link : LinkId) (k : TaskId) (bytes bytes' : Bytes) :
    spelled now link k (bytes ++ bytes') =
      spelled now link k bytes' ++ spelled now link k bytes := by
  unfold spelled
  rw [List.map_append, List.reverse_append]

theorem seamless_append (link : LinkId) (j j' : Journal) :
    seamless link (j ++ j') = seamless link j ++ seamless link j' := List.flatMap_append

theorem seamless_replay (now : Instant) (link : LinkId) (k : TaskId) (bytes : Bytes)
    (j : Journal) : seamless link (⟨now, .accepted link (.replay k) bytes⟩ :: j) =
      spelled now link k bytes ++ seamless link j := by
  unfold seamless
  rw [List.flatMap_cons]
  exact congrArg (· ++ _) (if_pos rfl)

/-! ## Views -/

/-- A view does not depend on the seams if it does not at any entry. -/
theorem findings_seamless {α : Type} {f : Event → Option α}
    (h : ∀ e : Entered, findings (e.seamless link) f = (f e.event).toList) :
    (j.seamless link).findings f = j.findings f := by
  induction j with
  | nil => rfl
  | cons e j ih =>
    unfold seamless at ih ⊢
    rw [List.flatMap_cons, findings_append, ih, h, findings_cons]

theorem findings_spelled {α : Type} {f : Event → Option α} {now : Instant} {k : TaskId}
    {bytes : Bytes} (h : ∀ b, f (.accepted link (.replay k) [b]) = none) :
    findings (spelled now link k bytes) f = [] := by
  unfold findings spelled
  rw [List.reverse_eq_nil_iff, List.filterMap_eq_nil_iff]
  intro e he
  obtain ⟨b, -, rfl⟩ := List.mem_map.mp (List.mem_reverse.mp he)
  exact h b

theorem findings_singleton {α : Type} (e : Entered) (f : Event → Option α) :
    findings [e] f = (f e.event).toList := findings_cons e [] f

/-- A view that shows neither the writes of a replay on `link` nor the place of the cut. -/
theorem findings_entry {α : Type} {f : Event → Option α}
    (hw : ∀ k bytes, f (.accepted link (.replay k) bytes) = none)
    (hn : ∀ n : Notice, f (.noticed n.withoutSplit) = f (.noticed n)) (e : Entered) :
    findings (e.seamless link) f = (f e.event).toList := by
  rcases e.seamless_cases link with ⟨now, k, bytes, rfl, hs⟩ | ⟨now, n, rfl, hs⟩ | ⟨-, hs⟩
  · rw [hs, findings_spelled fun b => hw k [b], hw]
    rfl
  · rw [hs, ← hn n]
    exact findings_singleton _ f
  · rw [hs]
    exact findings_singleton e f

theorem dials_seamless : (j.seamless link).dials = j.dials :=
  findings_seamless (findings_entry (fun _ _ => rfl) fun _ => rfl)

theorem writes_seamless_of_ne {l : LinkId} (hl : l ≠ link) :
    (j.seamless link).writes l = j.writes l :=
  findings_seamless (findings_entry (fun _ _ => if_neg (Ne.symm hl)) fun _ => rfl)

theorem bytesAccepted_spelled (now : Instant) (link : LinkId) (k : TaskId) (bytes : Bytes) :
    (findings (spelled now link k bytes) (Event.acceptedBy? link)).flatten = bytes := by
  induction bytes with
  | nil => rfl
  | cons b bytes ih =>
    have hsplit : spelled now link k (b :: bytes) =
        spelled now link k bytes ++ spelled now link k [b] := spelled_append now link k [b] bytes
    have hone : findings (spelled now link k [b]) (Event.acceptedBy? link) = [[b]] := by
      rw [show spelled now link k [b] = [⟨now, .accepted link (.replay k) [b]⟩] from rfl,
        findings_singleton]
      exact congrArg Option.toList (if_pos rfl)
    rw [hsplit, findings_append, hone, List.flatten_append, ih]
    rfl

/-- A connection has accepted the same bytes, whatever the seams. -/
theorem bytesAccepted_seamless (l : LinkId) :
    (j.seamless link).bytesAccepted l = j.bytesAccepted l := by
  by_cases hl : l = link
  · subst hl
    induction j with
    | nil => rfl
    | cons e j ih =>
      have hentry : (findings (e.seamless l) (Event.acceptedBy? l)).flatten =
          (e.event.acceptedBy? l).toList.flatten := by
        rcases e.seamless_cases l with ⟨now, k, bytes, rfl, hs⟩ | ⟨now, n, rfl, hs⟩ | ⟨-, hs⟩
        · have hmine : Event.acceptedBy? l (.accepted l (.replay k) bytes) = some bytes :=
            if_pos rfl
          rw [hs, bytesAccepted_spelled, hmine]
          exact (List.append_nil bytes).symm
        · rw [hs, findings_singleton]
          rfl
        · rw [hs, findings_singleton]
      unfold bytesAccepted writes seamless at ih ⊢
      rw [List.flatMap_cons, findings_append, findings_cons, List.flatten_append, ih, hentry,
        List.flatten_append]
  · unfold bytesAccepted
    rw [writes_seamless_of_ne hl]

theorem notices_seamless : (j.seamless link).notices = j.notices.map Notice.withoutSplit := by
  induction j with
  | nil => rfl
  | cons e j ih =>
    have hentry : findings (e.seamless link) Event.notice? =
        (e.event.notice?.toList).map Notice.withoutSplit := by
      rcases e.seamless_cases link with ⟨now, k, bytes, rfl, hs⟩ | ⟨now, n, rfl, hs⟩ | ⟨hn, hs⟩
      · rw [hs]
        exact findings_spelled fun _ => rfl
      · rw [hs]
        rfl
      · rw [hs, findings_singleton, hn]
        rfl
    unfold notices seamless at ih ⊢
    rw [List.flatMap_cons, findings_append, findings_cons, List.map_append, ih, hentry]

theorem count_seamless {p : Event → Bool}
    (hw : ∀ k bytes, p (.accepted link (.replay k) bytes) = false)
    (hn : ∀ n : Notice, p (.noticed n) = false) : (j.seamless link).count p = j.count p := by
  have hcount : ∀ j : Journal, j.count p =
      (j.findings fun e => if p e = true then some () else none).length := by
    intro j
    unfold count findings
    rw [List.length_reverse]
    induction j with
    | nil => rfl
    | cons e j ih =>
      cases hp : p e.event with
      | true => simp [hp, ih]
      | false => simp [hp, ih]
  rw [hcount, hcount]
  refine congrArg List.length (findings_seamless (findings_entry (fun k bytes => ?_) fun n => ?_))
  · rw [hw]
    rfl
  · rw [hn, hn]

end Journal

/-! ## Calls -/

namespace World

/-- What a world looks like to someone who does not see the seams of a replay on `link`. -/
def seamless (link : LinkId) (w : World) : World := { w with journal := w.journal.seamless link }

variable {link i : LinkId}

theorem enter_seamless {e : Event} (w : World)
    (h : Entered.seamless link ⟨w.now, e⟩ = [⟨w.now, e⟩]) :
    (w.seamless link).enter e = (w.enter e).seamless link := by
  unfold enter seamless Journal.seamless
  dsimp only
  rw [List.flatMap_cons, h]
  rfl

theorem read_seamless (w : World) (i : LinkId) (task : TaskId) (len : Nat) :
    (w.seamless link).read i task len =
      (w.read i task len).map fun t => (t.1.seamless link, t.2) := by
  have hlink : (w.seamless link).link? i = w.link? i := rfl
  unfold read
  rw [hlink]
  cases w.link? i with
  | none => rfl
  | some l =>
    show (l.read w.now w.opened len).bind _ = Option.map _ ((l.read w.now w.opened len).bind _)
    cases l.read w.now w.opened len with
    | none => rfl
    | some t =>
      obtain ⟨l', r⟩ := t
      cases r <;> rfl

theorem write_seamless (w : World) (i : LinkId) (task : TaskId) (buf : Bytes) :
    (w.seamless link).write i (.call task) buf =
      (w.write i (.call task) buf).map fun t => (t.1.seamless link, t.2) := by
  have hlink : (w.seamless link).link? i = w.link? i := rfl
  unfold write
  rw [hlink]
  cases w.link? i with
  | none => rfl
  | some l =>
    show (l.write w.opened buf).bind _ = Option.map _ ((l.write w.opened buf).bind _)
    cases l.write w.opened buf with
    | none => rfl
    | some t =>
      obtain ⟨l', r⟩ := t
      cases r <;> rfl

theorem shut_seamless (w : World) (i : LinkId) (half : Half) :
    (w.seamless link).shut i half =
      (w.shut i half).map fun t => (t.1.seamless link, t.2) := by
  have hlink : (w.seamless link).link? i = w.link? i := rfl
  unfold shut
  rw [hlink]
  cases w.link? i with
  | none => rfl
  | some l =>
    show (l.shut w.opened half).bind _ = Option.map _ ((l.shut w.opened half).bind _)
    cases l.shut w.opened half with
    | none => rfl
    | some t => rfl

theorem setDeadline_seamless (w : World) (i : LinkId) (deadline : Option Instant) :
    (w.seamless link).setDeadline i deadline = (w.setDeadline i deadline).seamless link := by
  have hlink : (w.seamless link).link? i = w.link? i := rfl
  unfold setDeadline
  rw [hlink]
  cases w.link? i <;> rfl

theorem connect_seamless (w : World) (i : LinkId) (script : DialScript) :
    (w.seamless link).connect i script =
      ((w.connect i script).1.seamless link, (w.connect i script).2) := by
  unfold connect
  dsimp only
  cases script.answer <;> rfl

theorem dialled_seamless (w : World) (i : LinkId) :
    (w.seamless link).dialled i = (w.dialled i).map fun t => (t.1.seamless link, t.2) := by
  have hdials : (w.seamless link).dials = w.dials := rfl
  unfold dialled
  rw [hdials]
  cases w.dials[i]? with
  | none => exact congrArg some (connect_seamless w i .refused)
  | some g =>
    show (if g.ready w.opened then _ else none) =
      Option.map _ (if g.ready w.opened then _ else none)
    split
    · exact congrArg some (connect_seamless w i g.item)
    · rfl

theorem feed_seamless (w : World) (i : LinkId) (more : LinkScript) :
    (w.seamless link).feed i more = (w.feed i more).seamless link := by
  have hlink : (w.seamless link).link? i = w.link? i := rfl
  unfold feed
  rw [hlink]
  cases w.link? i <;> rfl

end World

namespace BareCall

theorem step_seamless {link : LinkId} (task : TaskId) (i : LinkId) (w : World) (call : BareCall) :
    call.step task i (w.seamless link) =
      (call.step task i w).map fun t => (t.1.seamless link, t.2) := by
  cases call with
  | read len =>
    rw [step_read, step_read, World.read_seamless, Option.map_map, Option.map_map]
    rfl
  | write buf =>
    rw [step_write, step_write, World.write_seamless, Option.map_map, Option.map_map]
    rfl
  | writeAll rest =>
    cases rest with
    | nil => rfl
    | cons b bs =>
      have hrest := List.cons_ne_nil b bs
      rw [step_writeAll _ _ _ hrest, step_writeAll _ _ _ hrest, World.write_seamless,
        Option.map_map, Option.map_map]
      rfl
  | copy copied source rest =>
    cases rest with
    | nil =>
      unfold step
      show (source.pull w.opened copyLen).bind _ =
        Option.map _ ((source.pull w.opened copyLen).bind _)
      cases source.pull w.opened copyLen <;> rfl
    | cons b bs =>
      have hrest := List.cons_ne_nil b bs
      rw [step_copy _ _ _ _ _ hrest, step_copy _ _ _ _ _ hrest, World.write_seamless,
        Option.map_map, Option.map_map]
      rfl
  | shut half =>
    rw [step_shut, step_shut, World.shut_seamless, Option.map_map, Option.map_map]
    rfl

end BareCall

end Redial
