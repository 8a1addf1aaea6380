import Descent.Parser.Run

/-!
# Readings

A reading is what a parser makes of a sequence of characters: an outcome without
cursors, in which a place is named by the characters that are left there. This
file has the operations on readings that combinators stand for, and three
properties that the operations keep:

* `Within`: what is left is a suffix of what there was.
* `Sane`: the reading is a success or a failure, not a fault.
* `LeadsTo`: the reading ran out of depth, or it is the same as another one.
-/

namespace Descent

/-- **A reading**: how a parser ends on a sequence of characters. -/
inductive Reading (α : Type) where
  /-- A value, and the characters that are left. -/
  | took (value : α) (rest : List Char)
  /-- A failure under a label, before the characters `rest`. -/
  | refused (label : Text) (rest : List Char)
  /-- A repetition that makes no progress, before the characters `rest`. -/
  | stuck (label : Text) (rest : List Char)
  /-- Any other fault. -/
  | broken (e : Fault)
  deriving DecidableEq, Repr

namespace Reading

variable {α β : Type}

/-- The reading with its value changed. -/
def map (f : α → β) : Reading α → Reading β
  | .took v rest => .took (f v) rest
  | .refused label rest => .refused label rest
  | .stuck label rest => .stuck label rest
  | .broken e => .broken e

/-- The reading with its failure under another label. -/
def relabel (label : Text) : Reading α → Reading α
  | .refused _ rest => .refused label rest
  | r => r

/-- Goes on after a success. -/
def andThen (r : Reading α) (k : α → List Char → Reading β) : Reading β :=
  match r with
  | .took v rest => k v rest
  | .refused label rest => .refused label rest
  | .stuck label rest => .stuck label rest
  | .broken e => .broken e

/-- Goes on after a failure. -/
def orElse (r : Reading α) (k : Unit → Reading α) : Reading α :=
  match r with
  | .refused _ _ => k ()
  | r => r

/-- A computed value, or the fault in computing it. -/
def ofExcept (rest : List Char) : Except Fault α → Reading α
  | .ok v => .took v rest
  | .error e => .broken e

/-- Repeats a step until it fails. Each round uses up one element of the budget. -/
def repeated (label : Text) (step : List Char → Reading α) :
    List Char → List Char → Reading (List α)
  | budget, s =>
    match step s with
    | .refused _ _ => .took [] s
    | .stuck l rest => .stuck l rest
    | .broken e => .broken e
    | .took v rest =>
      if rest = s then .stuck label s
      else
        match budget with
        | [] => .broken .endless
        | _ :: budget => (repeated label step budget rest).map (v :: ·)

/-- What is left is a suffix of the characters given. -/
def Within (s : List Char) : Reading α → Prop
  | .took _ rest => rest <:+ s
  | .refused _ rest => rest <:+ s
  | .stuck _ rest => rest <:+ s
  | .broken _ => True

/-- The grammar is not at fault. -/
def Sane : Reading α → Prop
  | .took _ _ => True
  | .refused _ _ => True
  | _ => False

/-- The reading is a failure. -/
def IsRefused (r : Reading α) : Prop := ∃ label rest, r = .refused label rest

/-- The first reading has run out of depth, or it is the second one. -/
def LeadsTo (r r' : Reading α) : Prop := r = .broken .endless ∨ r = r'

/-! ## What is left -/

/-- What is left of a suffix is left of the whole. -/
theorem Within.mono {s t : List Char} {r : Reading α} (h : r.Within s) (hst : s <:+ t) :
    r.Within t := by
  cases r with
  | took v rest => exact h.trans hst
  | refused l rest => exact h.trans hst
  | stuck l rest => exact h.trans hst
  | broken e => trivial

theorem Within.map {s : List Char} {r : Reading α} (h : r.Within s) (f : α → β) :
    (r.map f).Within s := by
  cases r <;> exact h

theorem Within.relabel {s : List Char} {r : Reading α} (h : r.Within s) (label : Text) :
    (r.relabel label).Within s := by
  cases r <;> exact h

/-- What is left after two readings is left of what was there before. -/
theorem Within.andThen {s : List Char} {r : Reading α} {k : α → List Char → Reading β}
    (h : r.Within s) (hk : ∀ v rest, (k v rest).Within rest) : (r.andThen k).Within s := by
  cases r with
  | took v rest => exact (hk v rest).mono h
  | refused l rest => exact h
  | stuck l rest => exact h
  | broken e => trivial

theorem Within.orElse {s : List Char} {r : Reading α} {k : Unit → Reading α} (h : r.Within s)
    (hk : (k ()).Within s) : (r.orElse k).Within s := by
  cases r with
  | took v rest => exact h
  | refused l rest => exact hk
  | stuck l rest => exact h
  | broken e => trivial

/-- What a repetition leaves is a suffix if every round leaves one. -/
theorem within_repeated {label : Text} {step : List Char → Reading α}
    (hs : ∀ s, (step s).Within s) (budget s : List Char) :
    (repeated label step budget s).Within s := by
  induction budget generalizing s with
  | nil =>
    have h := hs s
    unfold repeated
    revert h
    cases step s with
    | took v rest => intro _; dsimp only; split <;> simp [Within]
    | refused l rest => intro _; exact List.suffix_refl s
    | stuck l rest => exact id
    | broken e => exact id
  | cons x budget ih =>
    have h := hs s
    unfold repeated
    revert h
    cases step s with
    | took v rest =>
      intro h
      dsimp only
      split
      · exact List.suffix_refl s
      · -- what later rounds leave is a suffix of what this one has left
        exact ((ih rest).mono h).map _
    | refused l rest => intro _; exact List.suffix_refl s
    | stuck l rest => exact id
    | broken e => exact id

/-- A budget that covers the characters ahead is as good as any other. -/
theorem repeated_budget {label : Text} {step : List Char → Reading α}
    (hs : ∀ s, (step s).Within s) {b b' s : List Char} (hb : s.length ≤ b.length)
    (hb' : s.length ≤ b'.length) : repeated label step b s = repeated label step b' s := by
  induction b generalizing b' s with
  | nil =>
    have h0 : s = [] := List.eq_nil_of_length_eq_zero (by simpa using hb)
    subst h0
    have h := hs []
    unfold repeated
    cases hr : step [] with
    | took v rest =>
      -- nothing is ahead, so nothing was taken
      rw [hr] at h
      have : rest = [] := List.suffix_nil.1 h
      simp [this]
    | refused l rest => rfl
    | stuck l rest => rfl
    | broken e => rfl
  | cons x b ih =>
    have h := hs s
    unfold repeated
    cases hr : step s with
    | took v rest =>
      rw [hr] at h
      by_cases he : rest = s
      · simp [he]
      · have hlt : rest.length < s.length :=
          Nat.lt_of_le_of_ne h.length_le fun hl => he (h.eq_of_length hl)
        -- a round takes a character, so what is left of either budget still covers what is ahead
        obtain ⟨y, b'', rfl⟩ := List.exists_cons_of_length_pos (by omega : 0 < b'.length)
        simp only [List.length_cons] at hb hb'
        simp only [he, if_false]
        have hbudget : repeated label step b rest = repeated label step b'' rest :=
          ih (by omega) (by omega)
        rw [hbudget]
    | refused l rest => rfl
    | stuck l rest => rfl
    | broken e => rfl

/-- **A repetition unfolds by one round.** -/
theorem repeated_eq {label : Text} {step : List Char → Reading α} (hs : ∀ s, (step s).Within s)
    (s : List Char) :
    repeated label step s s =
      match step s with
      | .refused _ _ => .took [] s
      | .stuck l rest => .stuck l rest
      | .broken e => .broken e
      | .took v rest =>
        if rest = s then .stuck label s else (repeated label step rest rest).map (v :: ·) := by
  have h := hs s
  rw [repeated]
  cases hr : step s with
  | took v rest =>
    rw [hr] at h
    by_cases he : rest = s
    · simp [he]
    · -- a round that took something leaves more budget than characters
      have hlt : rest.length < s.length :=
        Nat.lt_of_le_of_ne h.length_le fun hl => he (h.eq_of_length hl)
      obtain ⟨y, b, hb⟩ := List.exists_cons_of_length_pos (by omega : 0 < s.length)
      have hb' : rest.length ≤ b.length := by
        rw [hb, List.length_cons] at hlt
        omega
      simp only [he, if_false]
      rw [← repeated_budget hs hb' (Nat.le_refl _)]
      rw [hb]
  | refused l rest => rfl
  | stuck l rest => rfl
  | broken e => rfl

/-! ## The operations on each kind of reading -/

@[simp]
theorem map_took (f : α → β) (v : α) (rest : List Char) :
    (took v rest).map f = .took (f v) rest := rfl

@[simp]
theorem map_refused (f : α → β) (label : Text) (rest : List Char) :
    (refused label rest : Reading α).map f = .refused label rest := rfl

@[simp]
theorem relabel_took (label : Text) (v : α) (rest : List Char) :
    (took v rest).relabel label = .took v rest := rfl

@[simp]
theorem relabel_refused (label l : Text) (rest : List Char) :
    (refused l rest : Reading α).relabel label = .refused label rest := rfl

@[simp]
theorem andThen_took (v : α) (rest : List Char) (k : α → List Char → Reading β) :
    (took v rest).andThen k = k v rest := rfl

@[simp]
theorem andThen_refused (label : Text) (rest : List Char) (k : α → List Char → Reading β) :
    (refused label rest : Reading α).andThen k = .refused label rest := rfl

@[simp]
theorem orElse_took (v : α) (rest : List Char) (k : Unit → Reading α) :
    (took v rest).orElse k = .took v rest := rfl

@[simp]
theorem orElse_refused (label : Text) (rest : List Char) (k : Unit → Reading α) :
    (refused label rest : Reading α).orElse k = k () := rfl

/-- Choices may be grouped either way. -/
theorem orElse_assoc (r : Reading α) (k k' : Unit → Reading α) :
    (r.orElse k).orElse k' = r.orElse fun _ => (k ()).orElse k' := by
  cases r <;> rfl

theorem map_andThen {γ : Type} (r : Reading α) (k : α → List Char → Reading β) (f : β → γ) :
    (r.andThen k).map f = r.andThen fun v rest => (k v rest).map f := by
  cases r <;> rfl

theorem map_map {γ : Type} (r : Reading α) (f : α → β) (g : β → γ) :
    (r.map f).map g = r.map fun v => g (f v) := by
  cases r <;> rfl

/-- Readings in sequence may be grouped either way. -/
theorem andThen_assoc {γ : Type} (r : Reading α) (k : α → List Char → Reading β)
    (k' : β → List Char → Reading γ) :
    (r.andThen k).andThen k' = r.andThen fun v rest => (k v rest).andThen k' := by
  cases r <;> rfl

theorem andThen_map {γ : Type} (r : Reading α) (f : α → β) (k : β → List Char → Reading γ) :
    (r.map f).andThen k = r.andThen fun v rest => k (f v) rest := by
  cases r <;> rfl

theorem andThen_eq_map (r : Reading α) (f : α → β) :
    (r.andThen fun v rest => .took (f v) rest) = r.map f := by
  cases r <;> rfl

/-! ## How a success comes about -/

theorem map_eq_took {r : Reading α} {f : α → β} {w : β} {t : List Char} :
    r.map f = .took w t ↔ ∃ v, r = .took v t ∧ f v = w := by
  cases r with
  | took v rest =>
    constructor
    · intro h
      cases h
      exact ⟨v, rfl, rfl⟩
    · rintro ⟨v', h, rfl⟩
      cases h
      rfl
  | refused l rest => simp
  | stuck l rest => simp [map]
  | broken e => simp [map]

theorem relabel_eq_took {r : Reading α} {label : Text} {v : α} {t : List Char} :
    r.relabel label = .took v t ↔ r = .took v t := by
  cases r with
  | took v rest => rfl
  | refused l rest => simp
  | stuck l rest => rfl
  | broken e => rfl

/-- A failure under another label has that label. -/
theorem label_of_relabel {r : Reading α} {label l : Text} {t : List Char}
    (h : r.relabel label = .refused l t) : l = label := by
  cases r with
  | refused l' rest =>
    cases h
    rfl
  | _ => cases h

/-- Both readings have succeeded if both in sequence have. -/
theorem andThen_eq_took {r : Reading α} {k : α → List Char → Reading β} {w : β} {t : List Char} :
    r.andThen k = .took w t ↔ ∃ v s, r = .took v s ∧ k v s = .took w t := by
  cases r with
  | took v rest =>
    constructor
    · exact fun h => ⟨v, rest, rfl, h⟩
    · rintro ⟨v', s, h, hk⟩
      cases h
      exact hk
  | refused l rest => simp
  | stuck l rest => simp [andThen]
  | broken e => simp [andThen]

/-- A choice succeeds by the first reading, or by the second one after a failure. -/
theorem orElse_eq_took {r : Reading α} {k : Unit → Reading α} {v : α} {t : List Char} :
    r.orElse k = .took v t ↔ r = .took v t ∨ r.IsRefused ∧ k () = .took v t := by
  cases r with
  | took w rest => simp [IsRefused]
  | refused l rest => simp [IsRefused]
  | stuck l rest => simp [IsRefused, orElse]
  | broken e => simp [IsRefused, orElse]

/-! ## How a failure comes about -/

theorem isRefused_refused (label : Text) (rest : List Char) :
    (refused label rest : Reading α).IsRefused := ⟨label, rest, rfl⟩

theorem IsRefused.map {r : Reading α} (h : r.IsRefused) (f : α → β) : (r.map f).IsRefused := by
  obtain ⟨l, rest, rfl⟩ := h
  exact ⟨l, rest, rfl⟩

/-- A choice fails by the second reading, after a failure of the first. -/
theorem orElse_eq_refused {r : Reading α} {k : Unit → Reading α} {label : Text} {t : List Char} :
    r.orElse k = .refused label t ↔ r.IsRefused ∧ k () = .refused label t := by
  cases r with
  | took w rest => simp [IsRefused]
  | refused l rest => simp [IsRefused]
  | stuck l rest => simp [IsRefused, orElse]
  | broken e => simp [IsRefused, orElse]

theorem map_eq_refused {r : Reading α} {f : α → β} {label : Text} {t : List Char} :
    r.map f = .refused label t ↔ r = .refused label t := by
  cases r <;> simp [map]

theorem relabel_eq_refused {r : Reading α} {label l : Text} {t : List Char} :
    r.relabel label = .refused l t ↔ l = label ∧ ∃ l', r = .refused l' t := by
  constructor
  · intro h
    refine ⟨label_of_relabel h, ?_⟩
    cases r with
    | refused l' rest =>
      cases h
      exact ⟨l', rfl⟩
    | _ => cases h
  · rintro ⟨rfl, l', rfl⟩
    rfl

/-- A failure in sequence is that of the first reading, or of the second one after a success. -/
theorem andThen_eq_refused {r : Reading α} {k : α → List Char → Reading β} {label : Text}
    {t : List Char} :
    r.andThen k = .refused label t ↔
      r = .refused label t ∨ ∃ v s, r = .took v s ∧ k v s = .refused label t := by
  cases r with
  | took v rest =>
    constructor
    · exact fun h => .inr ⟨v, rest, rfl, h⟩
    · rintro (h | ⟨v', s, h, hk⟩)
      · cases h
      · cases h
        exact hk
  | refused l rest => simp
  | stuck l rest => simp [andThen]
  | broken e => simp [andThen]

theorem isRefused_of_map {r : Reading α} {f : α → β} (h : (r.map f).IsRefused) :
    r.IsRefused := by
  obtain ⟨l, rest, h⟩ := h
  exact ⟨l, rest, map_eq_refused.1 h⟩

theorem IsRefused.relabel {r : Reading α} (h : r.IsRefused) (label : Text) :
    (r.relabel label).IsRefused := by
  obtain ⟨l, rest, rfl⟩ := h
  exact ⟨label, rest, rfl⟩

theorem IsRefused.andThen {r : Reading α} (h : r.IsRefused) (k : α → List Char → Reading β) :
    (r.andThen k).IsRefused := by
  obtain ⟨l, rest, rfl⟩ := h
  exact ⟨l, rest, rfl⟩

/-- After a failure, the choice is the second reading. -/
theorem IsRefused.orElse_eq {r : Reading α} (h : r.IsRefused) (k : Unit → Reading α) :
    r.orElse k = k () := by
  obtain ⟨l, rest, rfl⟩ := h
  rfl

/-- A repetition does not fail. -/
theorem not_isRefused_repeated (label : Text) (step : List Char → Reading α)
    (budget s : List Char) : ¬ (repeated label step budget s).IsRefused := by
  induction budget generalizing s with
  | nil =>
    unfold repeated
    cases step s with
    | took v rest => dsimp only; split <;> simp [IsRefused]
    | _ => simp [IsRefused]
  | cons x budget ih =>
    unfold repeated
    cases step s with
    | took v rest =>
      dsimp only
      split
      · simp [IsRefused]
      · exact fun h => ih rest (isRefused_of_map h)
    | _ => simp [IsRefused]

/-! ## Sanity -/

/-- Without a fault, a reading is a success or a failure. -/
theorem sane_iff {r : Reading α} : r.Sane ↔ (∃ v rest, r = .took v rest) ∨ r.IsRefused := by
  cases r <;> simp [Sane, IsRefused]

theorem IsRefused.sane {r : Reading α} (h : r.IsRefused) : r.Sane := sane_iff.2 (.inr h)

theorem Sane.map {r : Reading α} (h : r.Sane) (f : α → β) : (r.map f).Sane := by
  cases r <;> exact h

theorem Sane.relabel {r : Reading α} (h : r.Sane) (label : Text) : (r.relabel label).Sane := by
  cases r <;> exact h

/-- Readings in sequence have no fault if none of them has one. -/
theorem Sane.andThen {r : Reading α} {k : α → List Char → Reading β} (h : r.Sane)
    (hk : ∀ v rest, r = .took v rest → (k v rest).Sane) : (r.andThen k).Sane := by
  cases r with
  | took v rest => exact hk v rest rfl
  | refused l rest => trivial
  | stuck l rest => exact h.elim
  | broken e => exact h.elim

/-- A choice has no fault if neither reading has one. -/
theorem Sane.orElse {r : Reading α} {k : Unit → Reading α} (h : r.Sane) (hk : (k ()).Sane) :
    (r.orElse k).Sane := by
  cases r with
  | took v rest => trivial
  | refused l rest => exact hk
  | stuck l rest => exact h.elim
  | broken e => exact h.elim

/-! ## Unfinished readings -/

theorem LeadsTo.refl (r : Reading α) : LeadsTo r r := .inr rfl

/-- Less depth that has run out or made no difference does so in steps. -/
theorem LeadsTo.trans {r₁ r₂ r₃ : Reading α} (h₁ : LeadsTo r₁ r₂) (h₂ : LeadsTo r₂ r₃) :
    LeadsTo r₁ r₃ := by
  rcases h₁ with h₁ | rfl
  · exact .inl h₁
  · exact h₂

/-- A reading without a fault is final. -/
theorem LeadsTo.eq_of_sane {r r' : Reading α} (h : LeadsTo r r') (hs : r.Sane) : r' = r := by
  rcases h with rfl | rfl
  · exact hs.elim
  · rfl

theorem LeadsTo.map {r r' : Reading α} (h : LeadsTo r r') (f : α → β) :
    LeadsTo (r.map f) (r'.map f) := by
  rcases h with rfl | rfl
  · exact .inl rfl
  · exact .refl _

theorem LeadsTo.relabel {r r' : Reading α} (h : LeadsTo r r') (label : Text) :
    LeadsTo (r.relabel label) (r'.relabel label) := by
  rcases h with rfl | rfl
  · exact .inl rfl
  · exact .refl _

/-- More depth for both readings is more depth for the sequence. -/
theorem LeadsTo.andThen {r r' : Reading α} {k k' : α → List Char → Reading β} (h : LeadsTo r r')
    (hk : ∀ v rest, LeadsTo (k v rest) (k' v rest)) : LeadsTo (r.andThen k) (r'.andThen k') := by
  rcases h with rfl | rfl
  · exact .inl rfl
  · cases r with
    | took v rest => exact hk v rest
    | refused l rest => exact .refl _
    | stuck l rest => exact .refl _
    | broken e => exact .refl _

/-- More depth for both readings is more depth for the choice. -/
theorem LeadsTo.orElse {r r' : Reading α} {k k' : Unit → Reading α} (h : LeadsTo r r')
    (hk : LeadsTo (k ()) (k' ())) : LeadsTo (r.orElse k) (r'.orElse k') := by
  rcases h with rfl | rfl
  · exact .inl rfl
  · cases r with
    | took v rest => exact .refl _
    | refused l rest => exact hk
    | stuck l rest => exact .refl _
    | broken e => exact .refl _

/-- More depth for a round is more depth for the repetition. -/
theorem leadsTo_repeated {label : Text} {step step' : List Char → Reading α}
    (h : ∀ s, LeadsTo (step s) (step' s)) (budget s : List Char) :
    LeadsTo (repeated label step budget s) (repeated label step' budget s) := by
  induction budget generalizing s with
  | nil =>
    unfold repeated
    -- a round that ran out of depth ends the repetition; any other is the same round
    rcases h s with he | he
    · rw [he]; exact .inl rfl
    · rw [he]; exact .refl _
  | cons x budget ih =>
    unfold repeated
    rcases h s with he | he
    · rw [he]; exact .inl rfl
    · rw [he]
      cases step' s with
      | took v rest =>
        dsimp only
        split
        · exact .refl _
        · exact (ih rest).map _
      | refused l rest => exact .refl _
      | stuck l rest => exact .refl _
      | broken e => exact .refl _

end Reading

end Descent
