import Redial.Config.Setting

/-!
# What settings come to

A setting sets one field and leaves the others alone, and whether it is refused is said by the
setting itself, not by the configuration that it is applied to (`Config.Applies`). So a list of
settings is refused for its first setting that has to be refused
(`Config.ofSettings_eq_error_iff`), and otherwise a field ends up with what the last setting of it
says, or the default (`Config.get_ofSettings`). Settings of different fields may change places
(`Config.toOption_ofSettings_congr`).
-/

namespace Redial

/-! ## Fields -/

/-- What a setting sets. -/
inductive Field where
  | baseTimeout
  | rttFactor
  | splitRange
  | splitSeed
  | chunkLen
  deriving DecidableEq

/-- What a field holds. A range is given by its ends. -/
def Field.Content : Field → Type
  | baseTimeout => Duration
  | rttFactor => UInt32
  | splitRange => Nat × Nat
  | splitSeed => Option UInt64
  | chunkLen => Nat

/-- What a configuration has in a field. -/
def Config.get (c : Config) : (f : Field) → f.Content
  | .baseTimeout => c.baseTimeout
  | .rttFactor => c.rttFactor
  | .splitRange => (c.splitRange.lo, c.splitRange.hi)
  | .splitSeed => c.splitSeed
  | .chunkLen => c.chunkLen

namespace Setting

/-- The field that a setting sets. -/
def field : Setting → Field
  | baseTimeout _ => .baseTimeout
  | rttFactor _ => .rttFactor
  | splitRange _ _ => .splitRange
  | splitSeed _ => .splitSeed
  | chunkLen _ => .chunkLen

/-- What a setting says about its field. -/
def argument : (s : Setting) → s.field.Content
  | baseTimeout base => base
  | rttFactor factor => factor
  | splitRange lo hi => (lo.toNat, hi.toNat)
  | splitSeed seed => some seed
  | chunkLen len => len.toNat

/-- What a setting says about a field, if that is the field that it sets. -/
def argument? (f : Field) (s : Setting) : Option f.Content :=
  if h : s.field = f then some (h ▸ s.argument) else none

theorem argument?_of_ne {f : Field} {s : Setting} (h : s.field ≠ f) : s.argument? f = none :=
  dif_neg h

theorem argument?_field (s : Setting) : s.argument? s.field = some s.argument := dif_pos rfl

/-- A setting has to be refused, with a text. -/
inductive RefusedWith : Setting → String → Prop where
  /-- The range has no offset. -/
  | emptyRange {lo hi : UInt64} (h : hi < lo) :
      RefusedWith (.splitRange lo hi) "split range must not be empty"
  /-- The chunks would be empty. -/
  | emptyChunk : RefusedWith (.chunkLen 0) "chunk length must not be zero"

theorem RefusedWith.unique {s : Setting} {text text' : String} (h : s.RefusedWith text)
    (h' : s.RefusedWith text') : text = text' := by
  cases h <;> cases h' <;> rfl

end Setting

/-- Refusals are known by their texts. -/
theorem Refusal.message_injective {r r' : Refusal} (h : r.message = r'.message) : r = r' := by
  cases r <;> cases r' <;> first | rfl | exact absurd h (by decide)

namespace Config

/-- What a setting does to a configuration: it is refused for what it says itself, or it sets its
field and leaves the others alone. -/
inductive Applies (c : Config) (s : Setting) : Except Refusal Config → Prop where
  | refused {r} (h : s.RefusedWith r.message) : Applies c s (.error r)
  | sets {c'} (h : ∀ text, ¬ s.RefusedWith text) (hown : c'.get s.field = s.argument)
      (hothers : ∀ f, s.field ≠ f → c'.get f = c.get f) : Applies c s (.ok c')

variable {c c' : Config} {s : Setting} {settings settings' : List Setting} {r : Refusal}

/-- Configurations with the same in every field are the same. -/
theorem eq_of_get (h : ∀ f, c.get f = c'.get f) : c = c' := by
  have hrange : c.splitRange = c'.splitRange := by
    obtain ⟨hlo, hhi⟩ := Prod.mk.inj (h .splitRange)
    exact OffsetRange.mk.injEq .. ▸ ⟨hlo, hhi⟩
  obtain ⟨_, _, _, _, _, _⟩ := c
  obtain ⟨_, _, _, _, _, _⟩ := c'
  cases (h .baseTimeout : _ = _)
  cases (h .rttFactor : _ = _)
  cases (h .splitSeed : _ = _)
  cases (h .chunkLen : _ = _)
  cases hrange
  rfl

/-! ## One setting -/

theorem applies_apply (c : Config) (s : Setting) : c.Applies s (c.apply s) := by
  cases s with
  | splitRange lo hi =>
    unfold apply
    dsimp only
    split
    · rename_i range hrange
      obtain ⟨hlo, hhi⟩ := OffsetRange.between?_eq_some_iff.mp hrange
      refine .sets ?_ (Prod.ext hlo.symm hhi.symm) fun f hf => ?_
      · rintro _ (⟨hlt⟩ | _)
        rw [OffsetRange.between?_eq_none_iff.mpr hlt] at hrange
        cases hrange
      · cases f <;> first | rfl | exact absurd rfl hf
    · rename_i hnone
      exact .refused (.emptyRange (OffsetRange.between?_eq_none_iff.mp hnone))
  | chunkLen len =>
    unfold apply
    dsimp only
    split
    · rename_i hpos
      refine .sets ?_ rfl fun f hf => ?_
      · rintro _ (_ | _)
        exact absurd hpos (Nat.lt_irrefl 0)
      · cases f <;> first | rfl | exact absurd rfl hf
    · rename_i hzero
      have hlen : len = 0 := UInt64.toNat_inj.mp (Nat.eq_zero_of_not_pos hzero)
      exact hlen ▸ .refused .emptyChunk
  | _ =>
    refine .sets (fun _ h => nomatch h) rfl fun f hf => ?_
    cases f <;> first | rfl | exact absurd rfl hf

/-- A field has what the setting says about it, or what it had before. -/
theorem get_apply (h : c.apply s = .ok c') (f : Field) :
    c'.get f = (s.argument? f).getD (c.get f) := by
  have happlies := h ▸ c.applies_apply s
  cases happlies with
  | sets _ hown hothers =>
    by_cases hf : s.field = f
    · subst hf
      rw [s.argument?_field]
      exact hown
    · rw [Setting.argument?_of_ne hf]
      exact hothers f hf

/-! ## Lists of settings -/

/-- The first setting that has to be refused is the head of a list, or it is the first one of the
rest and the head is not refused. -/
theorem firstRefused_cons {text : String} :
    (∃ before t after, s :: settings = before ++ t :: after ∧
        (∀ u ∈ before, ∀ text, ¬ u.RefusedWith text) ∧ t.RefusedWith text) ↔
      s.RefusedWith text ∨ (∀ text, ¬ s.RefusedWith text) ∧
        ∃ before t after, settings = before ++ t :: after ∧
          (∀ u ∈ before, ∀ text, ¬ u.RefusedWith text) ∧ t.RefusedWith text := by
  constructor
  · rintro ⟨before, t, after, hsplit, hbefore, ht⟩
    cases before with
    | nil =>
      obtain ⟨rfl, -⟩ := List.cons.inj hsplit
      exact .inl ht
    | cons u before =>
      obtain ⟨rfl, rfl⟩ := List.cons.inj hsplit
      obtain ⟨hs, hbefore⟩ := List.forall_mem_cons.mp hbefore
      exact .inr ⟨hs, before, t, after, rfl, hbefore, ht⟩
  · rintro (hs | ⟨hs, before, t, after, rfl, hbefore, ht⟩)
    · exact ⟨[], s, settings, rfl, List.forall_mem_nil _, hs⟩
    · exact ⟨s :: before, t, after, rfl, List.forall_mem_cons.mpr ⟨hs, hbefore⟩, ht⟩

/-- A list of settings is refused for the first setting that has to be refused. -/
theorem applyAll_eq_error_iff : c.applyAll settings = .error r ↔
    ∃ before s after, settings = before ++ s :: after ∧
      (∀ t ∈ before, ∀ text, ¬ t.RefusedWith text) ∧ s.RefusedWith r.message := by
  induction settings generalizing c with
  | nil =>
    refine iff_of_false (fun h => nomatch h) ?_
    rintro ⟨before, s, after, hnil, -⟩
    cases before <;> cases hnil
  | cons s settings ih =>
    rw [firstRefused_cons]
    unfold applyAll
    generalize hstep : c.apply s = step
    have happlies := hstep ▸ c.applies_apply s
    cases happlies with
    | @refused r' hs =>
      dsimp only
      constructor
      · rintro ⟨⟩
        exact .inl hs
      · rintro (hs' | ⟨hfree, -⟩)
        · rw [Refusal.message_injective (hs.unique hs')]
        · exact absurd hs (hfree _)
    | @sets c' hs =>
      dsimp only
      rw [ih]
      constructor
      · intro hrest
        exact .inr ⟨hs, hrest⟩
      · rintro (hs' | ⟨-, hrest⟩)
        · exact absurd hs' (hs _)
        · exact hrest

theorem not_refusedWith_of_applyAll (h : c.applyAll settings = .ok c') :
    ∀ s ∈ settings, ∀ text, ¬ s.RefusedWith text := by
  induction settings generalizing c with
  | nil => exact List.forall_mem_nil _
  | cons s settings ih =>
    unfold applyAll at h
    split at h
    · rename_i c₁ hs
      have happlies := hs ▸ c.applies_apply s
      cases happlies with
      | sets hs => exact List.forall_mem_cons.mpr ⟨hs, ih h⟩
    · cases h

/-- A field ends up with what the last setting of it says, or with what it had before. -/
theorem get_applyAll (h : c.applyAll settings = .ok c') (f : Field) :
    c'.get f = (settings.filterMap (Setting.argument? f)).getLast?.getD (c.get f) := by
  induction settings generalizing c with
  | nil =>
    cases h
    rfl
  | cons s settings ih =>
    unfold applyAll at h
    split at h
    · rename_i c₁ hs
      rw [ih h, get_apply hs f, List.filterMap_cons]
      cases s.argument? f with
      | none => rfl
      | some content => rw [List.getLast?_cons, Option.getD_some, Option.getD_some]
    · cases h

theorem ofSettings_eq_error_iff : ofSettings settings = .error r ↔
    ∃ before s after, settings = before ++ s :: after ∧
      (∀ t ∈ before, ∀ text, ¬ t.RefusedWith text) ∧ s.RefusedWith r.message :=
  applyAll_eq_error_iff

/-- A list of settings has a configuration unless it has an empty range or an empty chunk in it. -/
theorem exists_ofSettings_eq_error_iff : (∃ r, ofSettings settings = .error r) ↔
    (∃ lo hi, .splitRange lo hi ∈ settings ∧ hi < lo) ∨ .chunkLen 0 ∈ settings := by
  constructor
  · rintro ⟨r, hr⟩
    obtain ⟨before, s, after, rfl, -, hs⟩ := ofSettings_eq_error_iff.mp hr
    have hmem : s ∈ before ++ s :: after := List.mem_append_right _ List.mem_cons_self
    generalize r.message = text at hs
    cases hs with
    | emptyRange hlt => exact Or.inl ⟨_, _, hmem, hlt⟩
    | emptyChunk => exact Or.inr hmem
  · intro h
    cases hresult : ofSettings settings with
    | error r => exact ⟨r, rfl⟩
    | ok c =>
      have hfree := not_refusedWith_of_applyAll hresult
      rcases h with ⟨lo, hi, hmem, hlt⟩ | hmem
      · exact absurd (.emptyRange hlt) (hfree _ hmem _)
      · exact absurd .emptyChunk (hfree _ hmem _)

theorem get_ofSettings (h : ofSettings settings = .ok c) (f : Field) :
    c.get f = (settings.filterMap (Setting.argument? f)).getLast?.getD (default.get f) :=
  get_applyAll h f

/-! ## Order -/

/-- Only the settings of a field say something about it. -/
theorem filterMap_argument?_filter (f : Field) (settings : List Setting) :
    (settings.filter (·.field = f)).filterMap (Setting.argument? f) =
      settings.filterMap (Setting.argument? f) := by
  rw [List.filterMap_filter]
  refine congrArg (List.filterMap · settings) (funext fun s => ?_)
  by_cases hf : s.field = f
  · rw [if_pos (decide_eq_true hf)]
  · rw [Setting.argument?_of_ne hf, ite_self]

/-- Lists with the same settings of each field, in the same order, have the same configuration, or
both have none. -/
theorem toOption_ofSettings_congr
    (h : ∀ f, settings.filter (·.field = f) = settings'.filter (·.field = f)) :
    (ofSettings settings).toOption = (ofSettings settings').toOption := by
  have hmem : ∀ s, s ∈ settings ↔ s ∈ settings' := by
    intro s
    have hfield : s ∈ settings.filter (·.field = s.field) ↔
        s ∈ settings'.filter (·.field = s.field) := by rw [h]
    simpa using hfield
  have hrefused : (∃ r, ofSettings settings = .error r) ↔ ∃ r, ofSettings settings' = .error r := by
    rw [exists_ofSettings_eq_error_iff, exists_ofSettings_eq_error_iff]
    simp only [hmem]
  cases hc : ofSettings settings with
  | error r =>
    obtain ⟨r', hr'⟩ := hrefused.mp ⟨r, hc⟩
    rw [hr']
    rfl
  | ok c =>
    cases hc' : ofSettings settings' with
    | error r' =>
      obtain ⟨r, hr⟩ := hrefused.mpr ⟨r', hc'⟩
      cases hc.symm.trans hr
    | ok c' =>
      refine congrArg some (eq_of_get fun f => ?_)
      rw [get_ofSettings hc f, get_ofSettings hc' f, ← filterMap_argument?_filter, h,
        filterMap_argument?_filter]

end Config

end Redial
