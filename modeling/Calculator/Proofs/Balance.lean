import Calculator.Proofs.Grammar
import Calculator.Token.Screening

namespace Calculator

/-- Behind `depth` open groups, the tokens close none that is not open and leave none open. -/
structure BalancedFrom (depth : Nat) (ts : List Token) : Prop where
  within : ∀ before, before <+: ts → closings before ≤ depth + openings before
  closed : closings ts = depth + openings ts

def Balanced (ts : List Token) : Prop := BalancedFrom 0 ts

variable {depth : Nat} {t : Token} {ts : List Token}

theorem not_balanced_iff : ¬ Balanced ts ↔
    (∃ before, before <+: ts ∧ openings before < closings before) ∨ openings ts ≠ closings ts := by
  constructor
  · intro h
    rcases Classical.em (∃ before, before <+: ts ∧ openings before < closings before) with hex | hex
    · exact .inl hex
    · refine .inr fun he => h ⟨fun before hb => ?_, by omega⟩
      apply Nat.le_of_not_lt
      intro hlt
      exact hex ⟨before, hb, by omega⟩
  · rintro (⟨before, hb, hlt⟩ | hne) h
    · have hle := h.within before hb
      omega
    · have he := h.closed
      omega

theorem balancedFrom_nil : BalancedFrom depth [] ↔ depth = 0 := by
  constructor
  · intro h
    exact h.closed.symm
  · rintro rfl
    refine ⟨?_, rfl⟩
    intro before hb
    rw [List.prefix_nil.mp hb]
    exact Nat.le_refl 0

theorem balancedFrom_cons : BalancedFrom depth (t :: ts) ↔
    closings [t] ≤ depth + openings [t] ∧
      BalancedFrom (depth + openings [t] - closings [t]) ts := by
  have ho : ∀ us, openings (t :: us) = openings [t] + openings us := openings_append [t]
  have hc : ∀ us, closings (t :: us) = closings [t] + closings us := closings_append [t]
  constructor
  · intro h
    have ht := h.within [t] ⟨ts, rfl⟩
    refine ⟨ht, ?_, ?_⟩
    · intro before hb
      have hle := h.within (t :: before) (List.cons_prefix_cons.mpr ⟨rfl, hb⟩)
      rw [ho, hc] at hle
      omega
    · have he := h.closed
      rw [ho, hc] at he
      omega
  · intro h
    obtain ⟨ht, h⟩ := h
    refine ⟨?_, ?_⟩
    · intro before hb
      rcases List.prefix_cons_iff.mp hb with rfl | ⟨rest, rfl, hr⟩
      · exact Nat.zero_le _
      · have hle := h.within rest hr
        rw [ho, hc]
        omega
    · have he := h.closed
      rw [ho, hc]
      omega

theorem balancedFrom_opening :
    BalancedFrom depth (.symbol .opening :: ts) ↔ BalancedFrom (depth + 1) ts := by
  simp [balancedFrom_cons]

theorem not_balancedFrom_closing : ¬ BalancedFrom 0 (.symbol .closing :: ts) := by
  simp [balancedFrom_cons]

theorem balancedFrom_closing :
    BalancedFrom (depth + 1) (.symbol .closing :: ts) ↔ BalancedFrom depth ts := by
  simp [balancedFrom_cons]

/-- A token that is no parenthesis does not count. -/
theorem balancedFrom_other (ho : t ≠ .symbol .opening) (hc : t ≠ .symbol .closing) :
    BalancedFrom depth (t :: ts) ↔ BalancedFrom depth ts := by
  simp [balancedFrom_cons, ho, hc]

namespace Screening

/-- What the answer of a screening says about the parentheses. -/
def Verdict (depth : Nat) (ts : List Token) : Except Fault Unit → Prop
  | .ok () => BalancedFrom depth ts
  | .error (.mismatched mismatch) => mismatch ≠ .missingClosing ∧ ¬ BalancedFrom depth ts
  | .error (.doubledOperator _ _) => True
  | .error _ => False

theorem verdict_congr {depth' : Nat} {us : List Token} {answer : Except Fault Unit}
    (h : BalancedFrom depth' us ↔ BalancedFrom depth ts) (hv : Verdict depth ts answer) :
    Verdict depth' us answer := by
  unfold Verdict at hv ⊢
  split at hv <;> simp_all

theorem screenFrom_verdict (previous : Option Symbol) (depth : Nat) (ts : List Token) :
    Verdict depth ts (screenFrom previous depth ts) := by
  fun_induction screenFrom previous depth ts with
  | case1 previous => exact balancedFrom_nil.mpr rfl
  | case2 previous depth hd => exact ⟨by decide, mt balancedFrom_nil.mp hd⟩
  | case3 previous depth x rest ih => exact verdict_congr (balancedFrom_other nofun nofun) ih
  | case4 previous depth s rest first hf => trivial
  | case5 previous depth rest hf ih => exact verdict_congr balancedFrom_opening ih
  | case6 previous rest hf => exact ⟨by decide, not_balancedFrom_closing⟩
  | case7 previous rest depth hf ih => exact verdict_congr balancedFrom_closing ih
  | case8 previous depth s rest hf ho hc hc' ih =>
    refine verdict_congr (balancedFrom_other ?_ ?_) ih
    · rintro ⟨⟩
      exact ho rfl
    · rintro ⟨⟩
      cases depth with
      | zero => exact hc rfl rfl
      | succ depth => exact hc' depth rfl rfl

end Screening

theorem balanced_of_screen (h : screen ts = .ok ()) : Balanced ts := by
  have hv := Screening.screenFrom_verdict none 0 ts
  rw [← screen, h] at hv
  exact hv

end Calculator
