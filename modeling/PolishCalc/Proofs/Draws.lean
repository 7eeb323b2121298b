import PolishCalc.Proofs.Application

namespace PolishCalc

def Grown (earlier later : List Request) : Prop :=
  ∃ made, later = made ++ earlier ∧ ∀ request ∈ made, request.low < request.high

namespace Grown

variable {earlier between later : List Request}

theorem refl (earlier : List Request) : Grown earlier earlier :=
  ⟨[], rfl, by simp⟩

theorem trans (h : Grown earlier between) (h' : Grown between later) : Grown earlier later := by
  obtain ⟨made, rfl, hmade⟩ := h
  obtain ⟨made', rfl, hmade'⟩ := h'
  exact ⟨made' ++ made, (List.append_assoc _ _ _).symm, List.forall_mem_append.2 ⟨hmade', hmade⟩⟩

theorem suffix (h : Grown earlier later) : earlier <:+ later := by
  obtain ⟨made, rfl, -⟩ := h
  exact List.suffix_append made earlier

end Grown

def Source.Agree (source source' : Source) (earlier later : List Request) : Prop :=
  ∀ request before, earlier <:+ before → request :: before <:+ later →
    source' before request = source before request

theorem Source.Agree.of_suffix {source source' : Source} {earlier between later : List Request}
    (h : source.Agree source' earlier later) (hsuffix : between <:+ later) :
    source.Agree source' earlier between :=
  fun request before hbefore hrequest => h request before hbefore (hrequest.trans hsuffix)

structure Asks (f : Source → List Request → Except Failure Double × List Request) : Prop where
  grown : ∀ source earlier, Grown earlier (f source earlier).2
  agree : ∀ {source source' : Source} {base earlier : List Request}, base <:+ earlier →
    source.Agree source' base (f source earlier).2 → f source' earlier = f source earlier

namespace Asks

theorem nothing (result : Except Failure Double) : Asks fun _ earlier => (result, earlier) :=
  ⟨fun _ earlier => .refl earlier, fun _ _ => rfl⟩

theorem andThen {f : Source → List Request → Except Failure Double × List Request}
    {g : Double → Source → List Request → Except Failure Double × List Request} (hf : Asks f)
    (hg : ∀ x, Asks (g x)) :
    Asks fun source earlier =>
      match f source earlier with
      | (.ok x, between) => g x source between
      | (.error failure, between) => (.error failure, between) where
  grown source earlier := by
    have hgrown := hf.grown source earlier
    generalize f source earlier = done at hgrown
    obtain ⟨_ | x, between⟩ := done
    · exact hgrown
    · exact hgrown.trans ((hg x).grown source between)
  agree := by
    intro source source' base earlier hbase hagree
    have hgrown := hf.grown source earlier
    have hfirst : source.Agree source' base (f source earlier).2 → f source' earlier =
        f source earlier := hf.agree hbase
    generalize f source earlier = done at hagree hgrown hfirst
    obtain ⟨_ | x, between⟩ := done
    · rw [hfirst hagree]
    · rw [hfirst (hagree.of_suffix ((hg x).grown source between).suffix)]
      exact (hg x).agree (hbase.trans hgrown.suffix) hagree

end Asks

theorem low_le_high_of_randomBounds? {a b : Operand} {request : Request}
    (h : randomBounds? a b = .ok (some request)) : request.low ≤ request.high := by
  simp only [randomBounds?, bind, Except.bind, pure, Except.pure] at h
  repeat' split at h
  all_goals cases h
  exact min_le_max

theorem asks_randomInRange (a b : Operand) :
    Asks fun source earlier => randomInRange source earlier a b := by
  simp only [randomInRange]
  generalize hbounds :
    (if b = .absent then randomBounds? (.integer 1) a else randomBounds? a b) = bounds
  rcases bounds with fault | _ | request
  · exact .nothing _
  · exact .nothing _
  have hle : request.low ≤ request.high := by
    split at hbounds <;> exact low_le_high_of_randomBounds? hbounds
  by_cases hsame : request.low = request.high
  · simp only [if_pos hsame]
    exact .nothing _
  · simp only [if_neg hsame]
    constructor
    · intro source earlier
      exact ⟨[request], rfl, by simpa using lt_of_le_of_ne hle hsame⟩
    · intro source source' base earlier hbase hagree
      rw [hagree request earlier hbase List.suffix_rfl]

namespace Operator

theorem asks_step (op : Operator) (x : Double) (operand : Operand) :
    Asks fun source earlier => step source op x operand earlier := by
  by_cases hop : op = random
  · subst hop
    exact asks_randomInRange (.double x) operand
  · simp only [step_eq hop]
    exact .nothing _

theorem asks_foldRest (op : Operator) (x : Double) (rest : List Operand) :
    Asks fun source earlier => foldRest source op x rest earlier := by
  induction rest generalizing x with
  | nil => exact .nothing _
  | cons operand rest ih => exact (asks_step op x operand).andThen ih

theorem asks_apply (op : Operator) (operands : List Operand) :
    Asks fun source earlier => apply source op operands earlier := by
  cases operands with
  | nil => exact .nothing _
  | cons first rest =>
    simp only [apply]
    split
    · exact asks_randomInRange first .absent
    split
    · exact .nothing _
    · exact asks_foldRest op _ rest

theorem foldRest_quiet {op : Operator} (hop : op ≠ random) (x : Double) (rest : List Operand) :
    ∃ result, ∀ source earlier, foldRest source op x rest earlier = (result, earlier) := by
  induction rest generalizing x with
  | nil => exact ⟨.ok x, fun _ _ => rfl⟩
  | cons operand rest ih =>
    simp only [foldRest, step_eq hop]
    cases op.compute x operand with
    | error fault => exact ⟨_, fun _ _ => rfl⟩
    | ok y => exact ih y

theorem apply_quiet {op : Operator} (hop : op ≠ random) (operands : List Operand) :
    ∃ result, ∀ source earlier, apply source op operands earlier = (result, earlier) := by
  cases operands with
  | nil => exact ⟨_, fun _ _ => rfl⟩
  | cons first rest =>
    simp only [apply, hop, false_and, if_false]
    split
    · exact ⟨_, fun _ _ => rfl⟩
    · exact foldRest_quiet hop _ rest

end Operator

end PolishCalc
