import Calculator.Proofs.Balance
import Calculator.Proofs.Neighbours

namespace Calculator

/-- The token at an index is wrong: an operator other than a minus directly behind an operator, or a
closing parenthesis behind which no group can be closed. -/
inductive ViolatesAt (ts : List Token) : Nat → Fault → Prop where
  | doubled {i : Nat} {first second : Symbol} (before : ts[i]? = some (.symbol first))
      (here : ts[i + 1]? = some (.symbol second))
      (arithmetic : first ∈ [.plus, .minus, .times, .over])
      (binary : second ∈ [.plus, .times, .over]) :
      ViolatesAt ts (i + 1) (.doubledOperator first second)
  | closing {i : Nat} (here : ts[i]? = some (.symbol .closing))
      (nothing_open : openings (ts.take i) ≤ closings (ts.take i)) :
      ViolatesAt ts i (.mismatched .tooManyClosing)

/-- The answer that the first wrong token gives, and the count of parentheses where there is no such
token. -/
inductive Screened (ts : List Token) : Except Fault Unit → Prop where
  | violation {i : Nat} {f : Fault} (wrong : ViolatesAt ts i f)
      (first : ∀ j < i, ∀ g, ¬ ViolatesAt ts j g) : Screened ts (.error f)
  | leftOpen (clean : ∀ i f, ¬ ViolatesAt ts i f) (more : closings ts < openings ts) :
      Screened ts (.error (.mismatched .tooManyOpening))
  | passed (clean : ∀ i f, ¬ ViolatesAt ts i f) (enough : openings ts ≤ closings ts) :
      Screened ts (.ok ())

variable {ts before rest : List Token} {t : Token} {previous : Option Symbol} {depth i j : Nat}
  {f g : Fault}

theorem isDoubled_iff (first second : Symbol) : Screening.isDoubled first second = true ↔
    first ∈ [Symbol.plus, .minus, .times, .over] ∧ second ∈ [Symbol.plus, .times, .over] := by
  cases first <;> cases second <;> decide

theorem ViolatesAt.lt_length (h : ViolatesAt ts i f) : i < ts.length := by
  cases h with
  | doubled _ here => exact (List.getElem?_eq_some_iff.mp here).1
  | closing here => exact (List.getElem?_eq_some_iff.mp here).1

/-- A token is wrong in one way only. -/
theorem ViolatesAt.unique (hf : ViolatesAt ts i f) (hg : ViolatesAt ts i g) : f = g := by
  cases hf with
  | doubled before here arithmetic binary =>
    cases hg with
    | doubled before' here' =>
      rw [before] at before'
      rw [here] at here'
      cases before'
      cases here'
      rfl
    | closing here' =>
      rw [here] at here'
      cases here'
      simp at binary
  | closing here =>
    cases hg with
    | doubled _ here' _ binary =>
      rw [here] at here'
      cases here'
      simp at binary
    | closing => rfl

theorem Screened.unique {answer answer' : Except Fault Unit} (h : Screened ts answer)
    (h' : Screened ts answer') : answer = answer' := by
  cases h with
  | @violation i f wrong first =>
    cases h' with
    | @violation j g wrong' first' =>
      rcases Nat.lt_trichotomy i j with hlt | rfl | hlt
      · exact absurd wrong (first' i hlt f)
      · rw [wrong.unique wrong']
      · exact absurd wrong' (first j hlt g)
    | leftOpen clean => exact absurd wrong (clean i f)
    | passed clean => exact absurd wrong (clean i f)
  | leftOpen clean more =>
    cases h' with
    | violation wrong => exact absurd wrong (clean _ _)
    | leftOpen => rfl
    | passed _ enough => omega
  | passed clean enough =>
    cases h' with
    | violation wrong => exact absurd wrong (clean _ _)
    | leftOpen _ more => omega
    | passed => rfl

/-- A screening that has come so far: nothing was wrong up to here, and what it remembers is the
last symbol and the number of open groups. -/
structure ScreenedTo (ts before rest : List Token) (previous : Option Symbol) (depth : Nat) :
    Prop where
  split : ts = before ++ rest
  clean : ∀ i < before.length, ∀ f, ¬ ViolatesAt ts i f
  previous : previous = before.getLast?.bind Token.symbol?
  depth : openings before = closings before + depth

namespace ScreenedTo

theorem start (ts : List Token) : ScreenedTo ts [] ts none 0 :=
  ⟨rfl, fun _ hi => absurd hi (Nat.not_lt_zero _), rfl, rfl⟩

/-- The next token is wrong exactly if the screening sees it from what it remembers. -/
theorem violatesAt_iff (h : ScreenedTo ts before (t :: rest) previous depth) :
    ViolatesAt ts before.length f ↔
      (∃ first second, previous = some first ∧ t = .symbol second ∧
        Screening.isDoubled first second = true ∧ f = .doubledOperator first second) ∨
      (t = .symbol .closing ∧ depth = 0 ∧ f = .mismatched .tooManyClosing) := by
  obtain ⟨rfl, _, rfl, hd⟩ := h
  have hhere : (before ++ t :: rest)[before.length]? = some t := by simp
  have htake : (before ++ t :: rest).take before.length = before := by simp
  have hlast : ∀ i, before.length = i + 1 →
      (before ++ t :: rest)[i]?.bind Token.symbol? = before.getLast?.bind Token.symbol? := by
    intro i hi
    rw [List.getElem?_append_left (by omega), List.getLast?_eq_getElem?, hi, Nat.add_sub_cancel]
  constructor
  · intro h
    generalize hi : before.length = i at h hhere htake
    cases h with
    | @doubled i first second previous here arithmetic binary =>
      left
      rw [hhere] at here
      have hp := hlast i hi
      rw [previous] at hp
      exact ⟨first, second, hp.symm, Option.some.inj here,
        (isDoubled_iff first second).mpr ⟨arithmetic, binary⟩, rfl⟩
    | closing here nothing_open =>
      right
      rw [hhere] at here
      rw [htake] at nothing_open
      exact ⟨Option.some.inj here, by omega, rfl⟩
  · rintro (⟨first, second, hp, rfl, hdoubled, rfl⟩ | ⟨rfl, rfl, rfl⟩)
    · obtain ⟨arithmetic, binary⟩ := (isDoubled_iff first second).mp hdoubled
      obtain ⟨i, hi⟩ : ∃ i, before.length = i + 1 := by
        cases before with
        | nil => cases hp
        | cons u us => exact ⟨us.length, rfl⟩
      have hprevious : (before ++ .symbol second :: rest)[i]? = some (.symbol first) := by
        rw [← hlast i hi] at hp
        obtain ⟨u, hu, hs⟩ := Option.bind_eq_some_iff.mp hp
        cases u with
        | number x => cases hs
        | symbol s =>
          cases hs
          exact hu
      rw [hi] at hhere ⊢
      exact .doubled hprevious hhere arithmetic binary
    · refine .closing hhere ?_
      rw [htake]
      omega

/-- A token that is not wrong is passed. -/
theorem advance {depth' : Nat} (h : ScreenedTo ts before (t :: rest) previous depth)
    (hsymbol : ∀ s, t = .symbol s → previous.filter (Screening.isDoubled · s) = none)
    (hclosing : t = .symbol .closing → depth ≠ 0)
    (hdepth : openings [t] + depth = closings [t] + depth') :
    ScreenedTo ts (before ++ [t]) rest t.symbol? depth' := by
  refine ⟨by simp [h.split], ?_, by simp, ?_⟩
  · intro i hi f hv
    rcases Nat.lt_or_ge i before.length with hlt | hge
    · exact h.clean i hlt f hv
    · obtain rfl : i = before.length := by
        simp at hi
        omega
      rcases h.violatesAt_iff.mp hv with ⟨first, second, hp, ht, hdoubled, _⟩ | ⟨ht, hd, _⟩
      · have hfilter := hsymbol second ht
        rw [hp, Option.filter_some, if_pos hdoubled] at hfilter
        cases hfilter
      · exact hclosing ht hd
  · have hd := h.depth
    simp only [openings_append, closings_append]
    omega

/-- Where nothing is left, only the parentheses have to be counted. -/
theorem screened_end (h : ScreenedTo ts before [] previous depth) :
    Screened ts (if depth = 0 then .ok () else .error (.mismatched .tooManyOpening)) := by
  obtain ⟨rfl, hclean, _, hd⟩ := h
  rw [List.append_nil] at hclean ⊢
  have hall : ∀ i f, ¬ ViolatesAt before i f := fun i f hv => hclean i hv.lt_length f hv
  split
  · exact .passed hall (by omega)
  · exact .leftOpen hall (by omega)

theorem screened (h : ScreenedTo ts before rest previous depth) :
    Screened ts (Screening.screenFrom previous depth rest) := by
  fun_induction Screening.screenFrom previous depth rest generalizing before with
  | case1 previous => exact h.screened_end
  | case2 previous depth hd =>
    have he := h.screened_end
    rwa [if_neg hd] at he
  | case3 previous depth x rest ih =>
    refine ih (h.advance ?_ ?_ (by simp))
    · rintro s ⟨⟩
    · rintro ⟨⟩
  | case4 previous depth s rest first hf =>
    obtain ⟨hp, hdoubled⟩ := Option.filter_eq_some_iff.mp hf
    exact .violation (h.violatesAt_iff.mpr (.inl ⟨first, s, hp, rfl, hdoubled, rfl⟩)) h.clean
  | case5 previous depth rest hf ih =>
    refine ih (h.advance ?_ ?_ (by simp; omega))
    · rintro s ⟨⟩
      exact hf
    · rintro ⟨⟩
  | case6 previous rest hf =>
    exact .violation (h.violatesAt_iff.mpr (.inr ⟨rfl, rfl, rfl⟩)) h.clean
  | case7 previous rest depth hf ih =>
    refine ih (h.advance ?_ (fun _ => Nat.succ_ne_zero depth) (by simp; omega))
    rintro s ⟨⟩
    exact hf
  | case8 previous depth s rest hf ho hc hc' ih =>
    have hopening : s ≠ .opening := fun he => ho he
    have hclosing : s ≠ .closing := by
      intro he
      cases depth with
      | zero => exact hc he rfl
      | succ depth => exact hc' depth he rfl
    refine ih (h.advance ?_ ?_ (by simp [hopening, hclosing]))
    · rintro s ⟨⟩
      exact hf
    · rintro ⟨⟩
      exact absurd rfl hclosing

end ScreenedTo

/-- The first wrong token decides the answer of the screening, and the number of parentheses does
where no token is wrong. -/
theorem screen_answers_first_violation (ts : List Token) (answer : Except Fault Unit) :
    screen ts = answer ↔ Screened ts answer := by
  have h := (ScreenedTo.start ts).screened
  constructor
  · rintro rfl
    exact h
  · exact h.unique

end Calculator
