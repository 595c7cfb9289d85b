import Redial.Wire.BareCall

/-!
# What calls do to the world

Each call on a connection that comes to an end changes that connection only, and enters one event
in the journal. The lemmas here give the connection after a call (`Link.read_changes`,
`Link.write_changes`, `Link.shut_changes`), and the world in terms of its connections and its
journal; nothing else about the calls is needed to reason about streams.
-/

namespace Redial

/-! ## Views of a journal -/

namespace Journal

variable {α : Type}

theorem findings_cons (e : Entered) (j : Journal) (f : Event → Option α) :
    findings (e :: j) f = findings j f ++ (f e.event).toList := by
  unfold findings
  cases hf : f e.event with
  | none => simp [hf]
  | some a => simp [hf]

end Journal

/-! ## A connection after a call -/

namespace Link

variable {l l' : Link} {opened : List Gate}

/-- A read changes nothing but what arrives. -/
theorem read_changes {now : Instant} {len : Nat} {r : Except Fault Bytes}
    (h : l.read now opened len = some (l', r)) : ∃ reads, l' = { l with reads := reads } := by
  have hwait : ∀ {r}, l.waitForData now = some (l', r) →
      ∃ reads, l' = { l with reads := reads } := by
    intro r hw
    unfold waitForData at hw
    split at hw
    · cases hw
      exact ⟨_, rfl⟩
    · cases hw
  unfold read at h
  split at h
  · split at h <;> cases h <;> exact ⟨_, rfl⟩
  · split at h
    · split at h
      · cases h
        exact ⟨_, rfl⟩
      · exact hwait h
    · split at h
      · split at h
        · cases h
          exact ⟨_, rfl⟩
        · split at h
          · cases h
            exact ⟨_, rfl⟩
          · split at h <;> cases h <;> exact ⟨_, rfl⟩
      · split at h
        · cases h
          exact ⟨_, rfl⟩
        · exact hwait h

/-- A write changes nothing but the outcomes of later writes. It takes one of them, or there is none
and the write is not interrupted. -/
theorem write_changes {buf : Bytes} {r : Except Fault Bytes}
    (h : l.write opened buf = some (l', r)) :
    (l' = l ∧ ∀ f, r = .error f → f.isInterrupted = false) ∨
      ∃ g, l.writes = g :: l'.writes ∧ l' = { l with writes := l'.writes } := by
  unfold write at h
  split at h
  · cases h
    refine Or.inl ⟨rfl, fun f hf => ?_⟩
    cases hf
    rfl
  · split at h
    · cases h
      refine Or.inl ⟨rfl, fun f hf => ?_⟩
      cases hf
    · rename_i g rest hwrites
      split at h
      · dsimp only at h
        split at h <;> cases h <;> exact Or.inr ⟨g, hwrites, rfl⟩
      · cases h

/-- A request to shut a half may use up an answer of the script. It shuts the half if it is granted,
and changes nothing else. -/
theorem shut_changes {half : Half} {r : ShutAnswer} (h : l.shut opened half = some (l', r)) :
    ∃ answers, l' = match r with
      | none => (l.withShuts answers half).shutHalf half
      | some _ => l.withShuts answers half := by
  have hsame : l.withShuts (l.shuts half) half = l := by cases half <;> rfl
  unfold shut at h
  split at h
  · cases h
    refine ⟨l.shuts half, ?_⟩
    dsimp only
    rw [hsame]
  · rename_i g rest _
    split at h
    · dsimp only at h
      split at h <;> cases h <;> exact ⟨rest, rfl⟩
    · cases h

end Link

/-! ## The world after a call -/

namespace World

variable {w w' : World} {i j : LinkId} {l : Link}

@[simp] theorem journal_enter (w : World) (e : Event) :
    (w.enter e).journal = ⟨w.now, e⟩ :: w.journal := rfl

theorem lt_of_link?_eq_some (h : w.link? i = some l) : i < w.links.length := by
  refine Nat.lt_of_not_le fun hi => ?_
  unfold link? at h
  rw [List.getElem?_eq_none hi] at h
  cases h

theorem link?_setLink_self (h : i < w.links.length) (l : Link) :
    (w.setLink i l).link? i = some l := by
  unfold setLink link?
  simp [h]

theorem link?_setLink_of_ne (hij : i ≠ j) (l : Link) :
    (w.setLink i l).link? j = w.link? j := by
  unfold setLink link?
  simp [hij]

@[simp] theorem length_links_setLink (w : World) (i : LinkId) (l : Link) :
    (w.setLink i l).links.length = w.links.length := by
  unfold setLink
  simp

/-- Putting a connection in the place of another one keeps which connections there are. -/
theorem isSome_link?_setLink {l₀ : Link} (h : w.link? i = some l₀) (l : Link) (j : LinkId) :
    ((w.setLink i l).link? j).isSome = (w.link? j).isSome := by
  by_cases hij : i = j
  · subst hij
    rw [link?_setLink_self (lt_of_link?_eq_some h), h]
    rfl
  · rw [link?_setLink_of_ne hij]

/-- The event of a read that came to an end. -/
def readEvent (i : LinkId) (task : TaskId) : Except Fault Bytes → Event
  | .ok bytes => .delivered i task bytes
  | .error f => .readFailed i task f

/-- The event of a write of `buf` that came to an end. -/
def writeEvent (i : LinkId) (purpose : Purpose) (buf : Bytes) : Except Fault Bytes → Event
  | .ok bytes => .accepted i purpose bytes
  | .error f => .writeFailed i purpose buf f

theorem read_eq_some {task : TaskId} {len : Nat} {r : Except Fault Bytes}
    (h : w.read i task len = some (w', r)) :
    ∃ l l', w.link? i = some l ∧ l.read w.now w.opened len = some (l', r) ∧
      w' = (w.setLink i l').enter (readEvent i task r) := by
  unfold read at h
  obtain ⟨l, hl, h⟩ := Option.bind_eq_some_iff.mp h
  obtain ⟨⟨l', r'⟩, hr, h⟩ := Option.bind_eq_some_iff.mp h
  simp only [Option.some.injEq, Prod.mk.injEq] at h
  obtain ⟨rfl, rfl⟩ := h
  refine ⟨l, l', hl, hr, ?_⟩
  cases r' <;> rfl

theorem write_eq_some {purpose : Purpose} {buf : Bytes} {r : Except Fault Bytes}
    (h : w.write i purpose buf = some (w', r)) :
    ∃ l l', w.link? i = some l ∧ l.write w.opened buf = some (l', r) ∧
      w' = (w.setLink i l').enter (writeEvent i purpose buf r) := by
  unfold write at h
  obtain ⟨l, hl, h⟩ := Option.bind_eq_some_iff.mp h
  obtain ⟨⟨l', r'⟩, hr, h⟩ := Option.bind_eq_some_iff.mp h
  simp only [Option.some.injEq, Prod.mk.injEq] at h
  obtain ⟨rfl, rfl⟩ := h
  refine ⟨l, l', hl, hr, ?_⟩
  cases r' <;> rfl

theorem shut_eq_some {half : Half} {r : ShutAnswer} (h : w.shut i half = some (w', r)) :
    ∃ l l', w.link? i = some l ∧ l.shut w.opened half = some (l', r) ∧
      w' = (w.setLink i l').enter (.shut i half r) := by
  unfold shut at h
  obtain ⟨l, hl, h⟩ := Option.bind_eq_some_iff.mp h
  obtain ⟨⟨l', r'⟩, hr, h⟩ := Option.bind_eq_some_iff.mp h
  simp only [Option.some.injEq, Prod.mk.injEq] at h
  obtain ⟨rfl, rfl⟩ := h
  exact ⟨l, l', hl, hr, rfl⟩

/-- A read of a connection is the read of it, put back into the world. -/
theorem read_of_link? (h : w.link? i = some l) (task : TaskId) (len : Nat) :
    w.read i task len = (l.read w.now w.opened len).map fun t =>
      ((w.setLink i t.1).enter (readEvent i task t.2), t.2) := by
  unfold read
  rw [h]
  show (l.read w.now w.opened len).bind _ = _
  rcases l.read w.now w.opened len with _ | ⟨l', _ | _⟩ <;> rfl

theorem write_of_link? (h : w.link? i = some l) (purpose : Purpose) (buf : Bytes) :
    w.write i purpose buf = (l.write w.opened buf).map fun t =>
      ((w.setLink i t.1).enter (writeEvent i purpose buf t.2), t.2) := by
  unfold write
  rw [h]
  show (l.write w.opened buf).bind _ = _
  rcases l.write w.opened buf with _ | ⟨l', _ | _⟩ <;> rfl

theorem shut_of_link? (h : w.link? i = some l) (half : Half) :
    w.shut i half = (l.shut w.opened half).map fun t =>
      ((w.setLink i t.1).enter (.shut i half t.2), t.2) := by
  unfold shut
  rw [h]
  show (l.shut w.opened half).bind _ = _
  cases l.shut w.opened half <;> rfl

theorem close_of_link? (h : w.link? i = some l) :
    w.close i = ((w.setLink i l.close.1).enter (.closed i l.close.2), l.close.2) := by
  unfold close
  rw [h]

theorem setDeadline_of_link? (h : w.link? i = some l) (deadline : Option Instant) :
    w.setDeadline i deadline =
      (w.setLink i { l with deadline := deadline }).enter (.deadline i deadline) := by
  unfold setDeadline
  rw [h]

/-- A dial call ends with a fault and no connection, or with a new one; time may have passed. -/
theorem dialled_eq_some {r : Except Fault LinkId} (h : w.dialled i = some (w', r)) :
    ∃ now, (∃ f, r = .error f ∧ w' = ({ w with now := now } : World).enter (.dialFailed f)) ∨
      (∃ script, r = .ok i ∧
        w' = (({ w with now := now } : World).setLink i (.ofScript script)).enter
          (.connected i)) := by
  have hc : ∃ script : DialScript, w.connect i script = (w', r) := by
    unfold dialled at h
    split at h
    · exact ⟨_, Option.some.inj h⟩
    · split at h
      · exact ⟨_, Option.some.inj h⟩
      · cases h
  obtain ⟨script, hc⟩ := hc
  refine ⟨w.now.advance script.latency, ?_⟩
  unfold connect at hc
  dsimp only at hc
  split at hc
  · rename_i f _
    obtain ⟨rfl, rfl⟩ := Prod.mk.inj hc
    exact Or.inl ⟨f, rfl, rfl⟩
  · rename_i link _
    obtain ⟨rfl, rfl⟩ := Prod.mk.inj hc
    exact Or.inr ⟨link, rfl, rfl⟩

/-- A dial call that succeeds makes the connection that has its number. -/
theorem dialled_ok {link : LinkId} (h : w.dialled i = some (w', .ok link)) :
    ∃ now script, link = i ∧
      w' = (({ w with now := now } : World).setLink i (.ofScript script)).enter (.connected i) := by
  obtain ⟨now, ⟨f, hf, -⟩ | ⟨script, hlink, hw⟩⟩ := dialled_eq_some h
  · cases hf
  · cases hlink
    exact ⟨now, script, rfl, hw⟩

theorem dialled_error {f : Fault} (h : w.dialled i = some (w', .error f)) :
    w'.links = w.links := by
  obtain ⟨now, ⟨f', -, rfl⟩ | ⟨script, hlink, -⟩⟩ := dialled_eq_some h
  · rfl
  · cases hlink

/-! ## What calls enter in the journal -/

/-- In between, only events that satisfy `P` have been entered. -/
def Enters (P : Event → Prop) (w w' : World) : Prop :=
  ∃ es : Journal, w'.journal = es ++ w.journal ∧ ∀ e ∈ es, P e.event

namespace Enters

variable {P Q : Event → Prop}

theorem of_same (h : w'.journal = w.journal) : w.Enters P w' :=
  ⟨[], h, fun _ he => absurd he List.not_mem_nil⟩

theorem refl (w : World) : w.Enters P w := of_same rfl

theorem trans {w₁ w₂ w₃ : World} (h : w₁.Enters P w₂) (h' : w₂.Enters P w₃) : w₁.Enters P w₃ := by
  obtain ⟨es, hj, he⟩ := h
  obtain ⟨es', hj', he'⟩ := h'
  refine ⟨es' ++ es, ?_, fun e hmem => ?_⟩
  · rw [hj', hj, List.append_assoc]
  · rcases List.mem_append.mp hmem with hmem | hmem
    · exact he' e hmem
    · exact he e hmem

theorem mono (h : w.Enters P w') (hPQ : ∀ e, P e → Q e) : w.Enters Q w' := by
  obtain ⟨es, hj, he⟩ := h
  exact ⟨es, hj, fun e hmem => hPQ _ (he e hmem)⟩

theorem enter {e : Event} (he : P e) : w.Enters P (w.enter e) := by
  refine ⟨[⟨w.now, e⟩], rfl, fun d hd => ?_⟩
  rw [List.mem_singleton.mp hd]
  exact he

theorem note {n : Notice} (hn : P (.noticed n)) : w.Enters P (w.note n) := enter hn

theorem read {task : TaskId} {len : Nat} {r : Except Fault Bytes}
    (h : w.read i task len = some (w', r)) (he : P (readEvent i task r)) : w.Enters P w' := by
  obtain ⟨l, l', -, -, rfl⟩ := read_eq_some h
  exact (of_same rfl).trans (enter he)

theorem write {purpose : Purpose} {buf : Bytes} {r : Except Fault Bytes}
    (h : w.write i purpose buf = some (w', r)) (he : P (writeEvent i purpose buf r)) :
    w.Enters P w' := by
  obtain ⟨l, l', -, -, rfl⟩ := write_eq_some h
  exact (of_same rfl).trans (enter he)

theorem shut {half : Half} {r : ShutAnswer} (h : w.shut i half = some (w', r))
    (he : P (.shut i half r)) : w.Enters P w' := by
  obtain ⟨l, l', -, -, rfl⟩ := shut_eq_some h
  exact (of_same rfl).trans (enter he)

theorem setDeadline {deadline : Option Instant} (he : P (.deadline i deadline)) :
    w.Enters P (w.setDeadline i deadline) := by
  cases hl : w.link? i with
  | none =>
    unfold World.setDeadline
    rw [hl]
    exact .refl w
  | some l =>
    rw [setDeadline_of_link? hl]
    exact (of_same rfl).trans (enter he)

theorem dialled {r : Except Fault LinkId} (h : w.dialled i = some (w', r))
    (hc : P (.connected i)) (hf : ∀ f, P (.dialFailed f)) : w.Enters P w' := by
  obtain ⟨now, ⟨f, -, rfl⟩ | ⟨script, -, rfl⟩⟩ := dialled_eq_some h
  · exact (of_same rfl).trans (enter (hf f))
  · exact (of_same rfl).trans (enter hc)

theorem feed (w : World) (i : LinkId) (more : LinkScript) : w.Enters P (w.feed i more) := by
  unfold World.feed
  split
  · exact .refl w
  · exact of_same rfl

end Enters

/-! ## Which connections there are -/

/-- The same dial calls have been made, and the same ones have made a connection. -/
structure SameLinks (w w' : World) : Prop where
  length : w'.links.length = w.links.length
  isSome : ∀ i, (w'.link? i).isSome = (w.link? i).isSome

namespace SameLinks

theorem refl (w : World) : w.SameLinks w := ⟨rfl, fun _ => rfl⟩

theorem trans {w₁ w₂ w₃ : World} (h : w₁.SameLinks w₂) (h' : w₂.SameLinks w₃) :
    w₁.SameLinks w₃ :=
  ⟨h'.length.trans h.length, fun i => (h'.isSome i).trans (h.isSome i)⟩

theorem of_links (h : w'.links = w.links) : w.SameLinks w' := by
  refine ⟨congrArg List.length h, fun i => ?_⟩
  unfold link?
  rw [h]

theorem enter (w : World) (e : Event) : w.SameLinks (w.enter e) := of_links rfl

theorem note (w : World) (n : Notice) : w.SameLinks (w.note n) := .enter w _

theorem setLink {l₀ : Link} (h : w.link? i = some l₀) (l : Link) : w.SameLinks (w.setLink i l) :=
  ⟨length_links_setLink w i l, isSome_link?_setLink h l⟩

theorem read {task : TaskId} {len : Nat} {r : Except Fault Bytes}
    (h : w.read i task len = some (w', r)) : w.SameLinks w' := by
  obtain ⟨l, l', hl, -, rfl⟩ := read_eq_some h
  exact (setLink hl l').trans (.enter _ _)

theorem write {purpose : Purpose} {buf : Bytes} {r : Except Fault Bytes}
    (h : w.write i purpose buf = some (w', r)) : w.SameLinks w' := by
  obtain ⟨l, l', hl, -, rfl⟩ := write_eq_some h
  exact (setLink hl l').trans (.enter _ _)

theorem shut {half : Half} {r : ShutAnswer} (h : w.shut i half = some (w', r)) :
    w.SameLinks w' := by
  obtain ⟨l, l', hl, -, rfl⟩ := shut_eq_some h
  exact (setLink hl l').trans (.enter _ _)

theorem setDeadline (w : World) (i : LinkId) (deadline : Option Instant) :
    w.SameLinks (w.setDeadline i deadline) := by
  cases hl : w.link? i with
  | none =>
    unfold World.setDeadline
    rw [hl]
    exact .refl w
  | some l =>
    rw [setDeadline_of_link? hl]
    exact (setLink hl _).trans (.enter _ _)

theorem feed (w : World) (i : LinkId) (more : LinkScript) : w.SameLinks (w.feed i more) := by
  unfold World.feed
  split
  · exact .refl w
  · rename_i l hl
    exact setLink hl _

end SameLinks

end World

/-! ## Calls on one connection -/

namespace BareCall

section Step

variable (task : TaskId) (i : LinkId) (w : World)

theorem step_read (len : Nat) : (read len).step task i w =
    (w.read i task len).map fun t => (t.1, .done (.read t.2)) := by
  show (w.read i task len).bind _ = _
  cases w.read i task len <;> rfl

theorem step_write (buf : Bytes) : (write buf).step task i w =
    (w.write i (.call task) buf).map fun t => (t.1, .done (.wrote (t.2.map List.length))) := by
  show (w.write i (.call task) buf).bind _ = _
  cases w.write i (.call task) buf <;> rfl

theorem step_writeAll {rest : Bytes} (hrest : rest ≠ []) : (writeAll rest).step task i w =
    (w.write i (.call task) rest).map fun t =>
      (t.1, afterWrite rest t.2 (fun _ rest => .writeAll rest) fun f => .wroteAll (.error f)) := by
  obtain ⟨b, bs, rfl⟩ := List.exists_cons_of_ne_nil hrest
  show (w.write i (.call task) (b :: bs)).bind _ = _
  cases w.write i (.call task) (b :: bs) <;> rfl

theorem step_copy (copied : Nat) (source : Source) {rest : Bytes} (hrest : rest ≠ []) :
    (copy copied source rest).step task i w = (w.write i (.call task) rest).map fun t =>
      (t.1, afterWrite rest t.2 (fun n rest => .copy (copied + n) source rest)
        fun f => .copied (.error f) source) := by
  obtain ⟨b, bs, rfl⟩ := List.exists_cons_of_ne_nil hrest
  show (w.write i (.call task) (b :: bs)).bind _ = _
  cases w.write i (.call task) (b :: bs) <;> rfl

theorem step_shut (half : Half) : (shut half).step task i w =
    (w.shut i half).map fun t => (t.1, .done (.shut t.2.result)) := by
  show (w.shut i half).bind _ = _
  cases w.shut i half <;> rfl

end Step

/-- After a write, a loop goes on with what is left, tries again if the write was interrupted, or
fails. -/
theorem afterWrite_cases (rest : Bytes) (r : Except Fault Bytes) (goOn : Nat → Bytes → BareCall)
    (fail : Fault → Outcome) :
    (∃ bytes, r = .ok bytes ∧ bytes ≠ [] ∧ afterWrite rest r goOn fail =
      .goesOn (goOn bytes.length (rest.drop bytes.length))) ∨
    (∃ f, r = .error f ∧ f.isInterrupted = true ∧
      afterWrite rest r goOn fail = .goesOn (goOn 0 rest)) ∨
    ∃ f, (r = .ok [] ∧ f = .writeZero ∨ r = .error f ∧ f.isInterrupted = false) ∧
      afterWrite rest r goOn fail = .done (fail f) := by
  cases r with
  | ok bytes =>
    cases bytes with
    | nil => exact Or.inr (Or.inr ⟨_, Or.inl ⟨rfl, rfl⟩, rfl⟩)
    | cons b bs => exact Or.inl ⟨b :: bs, rfl, List.cons_ne_nil b bs, rfl⟩
  | error f =>
    right
    cases hf : f.isInterrupted with
    | true => exact Or.inl ⟨f, rfl, hf, if_pos hf⟩
    | false => exact Or.inr ⟨f, Or.inr ⟨rfl, hf⟩, if_neg (by rw [hf]; exact Bool.false_ne_true)⟩

/-- What a step of a call on a connection does. -/
inductive Effect (task : TaskId) (i : LinkId) (w : World) :
    BareCall → World → Progress BareCall Outcome → Prop where
  | reads {len w' r} (h : w.read i task len = some (w', r)) :
      Effect task i w (.read len) w' (.done (.read r))
  | writes {buf w' r} (h : w.write i (.call task) buf = some (w', r)) :
      Effect task i w (.write buf) w' (.done (.wrote (r.map List.length)))
  | endsAll : Effect task i w (.writeAll []) w (.done (.wroteAll (.ok ())))
  | writesAll {rest w' r} (hrest : rest ≠ [])
      (h : w.write i (.call task) rest = some (w', r)) :
      Effect task i w (.writeAll rest) w'
        (afterWrite rest r (fun _ rest => .writeAll rest) fun f => .wroteAll (.error f))
  | pullsEnd {copied source source'} (h : source.pull w.opened copyLen = some (source', .ok [])) :
      Effect task i w (.copy copied source []) w (.done (.copied (.ok copied) source'))
  | pulls {copied source source' piece}
      (h : source.pull w.opened copyLen = some (source', .ok piece)) (hpiece : piece ≠ []) :
      Effect task i w (.copy copied source []) w (.goesOn (.copy copied source' piece))
  | pullInterrupted {copied source source' f}
      (h : source.pull w.opened copyLen = some (source', .error f))
      (hf : f.isInterrupted = true) :
      Effect task i w (.copy copied source []) w (.goesOn (.copy copied source' []))
  | pullFault {copied source source' f}
      (h : source.pull w.opened copyLen = some (source', .error f))
      (hf : f.isInterrupted = false) :
      Effect task i w (.copy copied source []) w (.done (.copied (.error f) source'))
  | copies {copied source rest w' r} (hrest : rest ≠ [])
      (h : w.write i (.call task) rest = some (w', r)) :
      Effect task i w (.copy copied source rest) w'
        (afterWrite rest r (fun n rest => .copy (copied + n) source rest)
          fun f => .copied (.error f) source)
  | shuts {half w' r} (h : w.shut i half = some (w', r)) :
      Effect task i w (.shut half) w' (.done (.shut r.result))

theorem effect_of_step {task : TaskId} {i : LinkId} {w w' : World} {call : BareCall}
    {p : Progress BareCall Outcome} (h : call.step task i w = some (w', p)) :
    Effect task i w call w' p := by
  cases call with
  | read len =>
    obtain ⟨⟨w₁, r⟩, hr, h⟩ := Option.bind_eq_some_iff.mp h
    cases h
    exact .reads hr
  | write buf =>
    obtain ⟨⟨w₁, r⟩, hw, h⟩ := Option.bind_eq_some_iff.mp h
    cases h
    exact .writes hw
  | writeAll rest =>
    cases rest with
    | nil =>
      cases h
      exact .endsAll
    | cons b bs =>
      obtain ⟨⟨w₁, r⟩, hw, h⟩ := Option.bind_eq_some_iff.mp h
      cases h
      exact .writesAll (List.cons_ne_nil b bs) hw
  | copy copied source rest =>
    cases rest with
    | nil =>
      obtain ⟨⟨source', r⟩, hp, h⟩ := Option.bind_eq_some_iff.mp h
      cases r with
      | ok piece =>
        cases piece with
        | nil =>
          cases h
          exact .pullsEnd hp
        | cons b bs =>
          cases h
          exact .pulls hp (List.cons_ne_nil b bs)
      | error f =>
        cases h
        dsimp only
        split
        · rename_i hf
          exact .pullInterrupted hp hf
        · rename_i hf
          exact .pullFault hp (Bool.not_eq_true _ ▸ hf)
    | cons b bs =>
      obtain ⟨⟨w₁, r⟩, hw, h⟩ := Option.bind_eq_some_iff.mp h
      cases h
      exact .copies (List.cons_ne_nil b bs) hw
  | shut half =>
    obtain ⟨⟨w₁, r⟩, hw, h⟩ := Option.bind_eq_some_iff.mp h
    cases h
    exact .shuts hw

theorem Effect.sameLinks {task : TaskId} {i : LinkId} {w w' : World} {call : BareCall}
    {p : Progress BareCall Outcome} (h : Effect task i w call w' p) : w.SameLinks w' := by
  cases h with
  | reads h => exact .read h
  | writes h | writesAll _ h | copies _ h => exact .write h
  | shuts h => exact .shut h
  | _ => exact .refl w

theorem Effect.enters {task : TaskId} {i : LinkId} {w w' : World} {call : BareCall}
    {p : Progress BareCall Outcome} {P : Event → Prop} (h : Effect task i w call w' p)
    (hr : ∀ r, P (World.readEvent i task r))
    (hw : ∀ buf r, P (World.writeEvent i (.call task) buf r))
    (hs : ∀ half r, P (.shut i half r)) : w.Enters P w' := by
  cases h with
  | reads h => exact .read h (hr _)
  | writes h | writesAll _ h | copies _ h => exact .write h (hw _ _)
  | shuts h => exact .shut h (hs _ _)
  | _ => exact .refl w

end BareCall

/-! ## Single calls on a connection -/

namespace Link

variable {l l' : Link}

theorem write_isPrefix {opened : List Gate} {buf bytes : Bytes}
    (h : l.write opened buf = some (l', .ok bytes)) : bytes <+: buf := by
  have husual : ∀ l : Link, l.usualTake buf <+: buf := by
    intro l
    unfold usualTake
    split
    · exact List.prefix_rfl
    · exact List.take_prefix _ _
  unfold write at h
  split at h
  · cases h
  · split at h
    · cases h
      exact husual l
    · split at h
      · dsimp only at h
        split at h
        · cases h
        · cases h
          exact List.take_prefix _ _
        · cases h
          exact husual _
      · cases h

end Link

end Redial
