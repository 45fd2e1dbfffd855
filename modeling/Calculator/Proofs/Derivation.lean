import Calculator.Proofs.Stepping

namespace Calculator

/-- The tokens of a left operand that waits with its operation. -/
inductive Waiting (level : Level) : Option (Expr × Operation) → List Token → Prop where
  | none : Waiting level none []
  | some {ts : List Token} {e : Expr} (op : Operation) (same : op.level = level)
      (left : Derives level ts e) : Waiting level (some (e, op)) (ts ++ [.symbol op.symbol])

/-- The tokens that stand in a group in front of an operand that is due. -/
inductive Frame.Awaits (f : Frame) : List Token → Prop where
  | intro {ss ps : List Token} (sum : Waiting .sum f.sum ss)
      (product : Waiting .product f.product ps) :
      Awaits f (ss ++ ps ++ List.replicate f.minuses (.symbol .minus))

/-- The tokens up to the innermost group that is open. -/
inductive Around : List Frame → List Token → Prop where
  | nil : Around [] []
  | cons {f : Frame} {fs : List Frame} {ts us : List Token} (outer : Around fs ts)
      (frame : f.Awaits us) : Around (f :: fs) (ts ++ us ++ [.symbol .opening])

/-- The tokens that lead to a state of the reader. -/
inductive Partial.Spells : Partial → List Token → Prop where
  | due {f : Frame} {fs : List Frame} {ts us : List Token} (outer : Around fs ts)
      (frame : f.Awaits us) : Spells ⟨f, fs, none⟩ (ts ++ us)
  | ended {f : Frame} {fs : List Frame} {e : Expr} {ts ss ps : List Token}
      (outer : Around fs ts) (sum : Waiting .sum f.sum ss) (product : Derives .product ps e) :
      Spells ⟨f, fs, some e⟩ (ts ++ (ss ++ ps))

variable {f : Frame} {fs : List Frame} {room : Nat} {p q : Partial} {t : Token}
  {ts us ss ps : List Token} {e : Expr}

theorem Frame.Awaits.empty : Frame.empty.Awaits [] :=
  @Frame.Awaits.intro .empty [] [] .none .none

theorem Waiting.product {w : Option (Expr × Operation)} (h : Waiting .product w ts)
    (hu : Derives .unary us e) : Derives .product (ts ++ us) (Frame.join w e) := by
  cases h with
  | none => exact .unary hu
  | some op same left =>
    rw [List.append_assoc]
    exact .scale op same left hu

theorem Waiting.sum {w : Option (Expr × Operation)} (h : Waiting .sum w ts)
    (hu : Derives .product us e) : Derives .sum (ts ++ us) (Frame.join w e) := by
  cases h with
  | none => exact .product hu
  | some op same left =>
    rw [List.append_assoc]
    exact .combine op same left hu

/-- An operand completes the product in front of it. -/
theorem Frame.Awaits.endOperand (outer : Around fs ts) (frame : f.Awaits us)
    (operand : Derives .primary ps e) :
    (Partial.endOperand f fs e).Spells (ts ++ us ++ ps) := by
  obtain ⟨sum, product⟩ := frame
  have hp := product.product ((Derives.primary operand).minuses f.minuses)
  have h : (Partial.endOperand f fs e).Spells _ := .ended outer sum hp
  simpa only [List.append_assoc] using h

theorem Frame.await_sum {op : Operation} (same : op.level = .sum) :
    f.await e op = ⟨some (f.sumTo e, op), none, 0⟩ := by
  cases op with
  | add | subtract => rfl
  | multiply | divide => cases same

theorem Frame.await_product {op : Operation} (same : op.level = .product) :
    f.await e op = ⟨f.sum, some (e, op), 0⟩ := by
  cases op with
  | add | subtract => cases same
  | multiply | divide => rfl

theorem Operation.level_cases (op : Operation) : op.level = .sum ∨ op.level = .product := by
  cases op with
  | add | subtract => exact .inl rfl
  | multiply | divide => exact .inr rfl

/-- An operator leaves what it follows waiting, on the side of a sum or of a product. -/
theorem Frame.Awaits.await (sum : Waiting .sum f.sum ss) (product : Derives .product ps e)
    (op : Operation) : (f.await e op).Awaits (ss ++ ps ++ [.symbol op.symbol]) := by
  rcases op.level_cases with same | same
  · rw [await_sum same]
    simpa using Awaits.intro (f := ⟨some (f.sumTo e, op), none, 0⟩)
      (.some op same (sum.sum product)) .none
  · rw [await_product same]
    simpa using Awaits.intro (f := ⟨f.sum, some (e, op), 0⟩) sum (.some op same product)

/-- One step spells one token more. -/
theorem Partial.Spells.move (h : p.Spells ts) (hm : Move room p t q) : q.Spells (ts ++ [t]) := by
  cases hm with
  | number f fs x =>
    cases h with
    | due outer frame => exact frame.endOperand outer (.number x)
  | minus f fs =>
    cases h with
    | due outer frame =>
      obtain ⟨sum, product⟩ := frame
      have hf := Frame.Awaits.intro (f := { f with minuses := f.minuses + 1 }) sum product
      rw [List.append_assoc]
      simpa only [List.replicate_succ', List.append_assoc] using Spells.due outer hf
  | opening f fs free =>
    cases h with
    | due outer frame => simpa using Spells.due (Around.cons outer frame) .empty
  | closing f g fs e =>
    cases h with
    | ended outer sum product =>
      cases outer with
      | cons outer frame =>
        have hg : Derives .primary _ (Frame.sumTo _ _) := .group (sum.sum product)
        simpa only [List.append_assoc, List.cons_append, List.nil_append]
          using frame.endOperand outer hg
  | operator f fs e op =>
    cases h with
    | ended outer sum product =>
      rw [List.append_assoc]
      exact .due outer (.await sum product op)

theorem Partial.Spells.run (h : p.Spells ts) (hr : p.run room us = some q) :
    q.Spells (ts ++ us) := by
  induction us generalizing p ts with
  | nil =>
    cases hr
    simpa using h
  | cons u us ih =>
    obtain ⟨m, hm, hr⟩ := run_cons_eq_some_iff.mp hr
    simpa using ih (h.move hm) hr

theorem Partial.Spells.start : Partial.start.Spells [] := .due .nil .empty

/-- A run that closes all its groups behind an operand has gone over an expression. -/
theorem Partial.derives_of_run (hr : Partial.start.run room ts = some q) (he : q.ended = some e)
    (ho : q.outer = []) : Derives .sum ts (q.frame.sumTo e) := by
  have h := Spells.start.run hr
  obtain ⟨f, fs, ended⟩ := q
  cases he
  cases ho
  cases h with
  | ended outer sum product =>
    cases outer
    exact sum.sum product

theorem Expr.negateTimes_negate (n : Nat) (e : Expr) :
    negateTimes n (.negate e) = negateTimes (n + 1) e := by
  induction n with
  | zero => rfl
  | succ n ih => exact congrArg Expr.negate ih

/-- Where the tokens of each rule lead a reader who has room for all of them. Minus signs and the
product in front of an operand are used up with it, and only the sum still waits. -/
def Leads : Level → List Token → Expr → Prop
  | .primary, ts, e => ∀ room f fs, fs.length + ts.length ≤ room →
      Partial.run room ⟨f, fs, none⟩ ts = some (Partial.endOperand f fs e)
  | .unary, ts, e => ∀ room f fs, fs.length + ts.length ≤ room →
      ∃ g : Frame, g.sum = f.sum ∧
        Partial.run room ⟨f, fs, none⟩ ts = some ⟨g, fs, some (f.productTo e)⟩
  | .product, ts, e => ∀ room f fs, fs.length + ts.length ≤ room →
      f.product = none → f.minuses = 0 →
      ∃ g : Frame, g.sum = f.sum ∧ Partial.run room ⟨f, fs, none⟩ ts = some ⟨g, fs, some e⟩
  | .sum, ts, e => ∀ room fs, fs.length + ts.length ≤ room →
      ∃ (g : Frame) (product : Expr), g.sumTo product = e ∧
        Partial.run room ⟨.empty, fs, none⟩ ts = some ⟨g, fs, some product⟩

/-- Each rule of the grammar leads the reader where the rules of its parts lead it in turn. -/
theorem Derives.leads {level : Level} (h : Derives level ts e) : Leads level ts e := by
  induction h with
  | number x =>
    intro room f fs _
    rfl
  | group inner ih =>
    intro room f fs hl
    simp only [List.cons_append, List.length_cons, List.length_append, List.length_nil] at hl
    obtain ⟨g, product, he, hr⟩ := ih room (f :: fs) (by simp only [List.length_cons]; omega)
    have ho : Partial.Move room ⟨f, fs, none⟩ (.symbol .opening) ⟨.empty, f :: fs, none⟩ :=
      .opening f fs (by omega)
    refine Partial.run_cons_eq_some_iff.mpr ⟨_, ho, Partial.run_trans hr ?_⟩
    -- closing the group makes the tree of its sum an operand around it
    subst he
    rfl
  | primary _ ih =>
    intro room f fs hl
    exact ⟨f, rfl, ih room f fs hl⟩
  | minus _ ih =>
    intro room f fs hl
    simp only [List.length_cons] at hl
    obtain ⟨g, hg, hr⟩ := ih room { f with minuses := f.minuses + 1 } fs (by omega)
    refine ⟨g, hg, Partial.run_cons_eq_some_iff.mpr ⟨_, .minus f fs, ?_⟩⟩
    rw [hr, Frame.productTo, Frame.productTo, Expr.negateTimes_negate]
  | unary _ ih =>
    intro room f fs hl hp hm
    obtain ⟨g, hg, hr⟩ := ih room f fs hl
    refine ⟨g, hg, ?_⟩
    rw [hr, Frame.productTo, hp, hm]
    rfl
  | @scale _ _ l r op same _ _ ihl ihr =>
    -- the product so far waits in the group while the operand on its right is read
    intro room f fs hl hp hm
    simp only [List.length_append, List.length_cons] at hl
    obtain ⟨g, hg, hrl⟩ := ihl room f fs (by omega) hp hm
    have ho := Partial.step_operator room g fs l op
    rw [Frame.await_product same] at ho
    obtain ⟨g', hg', hrr⟩ := ihr room ⟨g.sum, some (l, op), 0⟩ fs (by omega)
    refine ⟨g', hg'.trans hg, Partial.run_trans hrl ?_⟩
    rw [Partial.run_cons, ho]
    exact hrr
  | product _ ih =>
    intro room fs hl
    obtain ⟨g, hg, hr⟩ := ih room .empty fs hl rfl rfl
    refine ⟨g, _, ?_, hr⟩
    rw [Frame.sumTo, hg]
    rfl
  | @combine _ _ l r op same _ _ ihl ihr =>
    intro room fs hl
    simp only [List.length_append, List.length_cons] at hl
    obtain ⟨g, product, he, hrl⟩ := ihl room fs (by omega)
    have ho := Partial.step_operator room g fs product op
    rw [Frame.await_sum same] at ho
    obtain ⟨g', hg', hrr⟩ := ihr room ⟨some (g.sumTo product, op), none, 0⟩ fs (by omega) rfl rfl
    refine ⟨g', r, ?_, Partial.run_trans hrl ?_⟩
    · rw [Frame.sumTo, hg', he]
      rfl
    · rw [Partial.run_cons, ho]
      exact hrr

/-- Runs that end behind an operand with all groups closed are derivations that nest no deeper than
there is room. -/
theorem Partial.run_iff_derives : (∃ g product, g.sumTo product = e ∧
      Partial.start.run room ts = some ⟨g, [], some product⟩) ↔
    Derives .sum ts e ∧ NestsWithin room ts := by
  constructor
  · intro hrun
    obtain ⟨g, product, rfl, hr⟩ := hrun
    refine ⟨derives_of_run hr rfl rfl, ?_⟩
    intro before hb
    simpa [start] using run_nests hr (Nat.zero_le _) hb
  · intro hderived
    obtain ⟨h, hn⟩ := hderived
    obtain ⟨g, product, he, hr⟩ := h.leads ts.length [] (by simp)
    refine ⟨g, product, he, run_within hr ?_⟩
    intro before hb
    simpa [start] using hn before hb

end Calculator
