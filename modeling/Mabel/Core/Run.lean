import Mabel.Core.Outcome

/-!
# Runs of a machine that may refuse its input

A machine is offered inputs one after another. It moves on the ones it accepts and stays
where it is on the others, so a state is reached by the log of accepted inputs alone.
Results about every sequence of offers follow from what one accepted step preserves, and
a machine that simulates another step by step has its runs.
-/

namespace Machine

variable {σ τ ι κ ε : Type}

/-! ## Logs -/

/-- A log around one of its entries. -/
theorem log_split {log : List ι} {k : Nat} {i : ι} (hk : log[k]? = some i) :
    log.take k ++ i :: log.drop (k + 1) = log := by
  obtain ⟨hlt, hi⟩ := List.getElem?_eq_some_iff.mp hk
  rw [← hi, List.getElem_cons_drop, List.take_append_drop]

/-- A log of accepted inputs leads from one state to another. -/
inductive RunFrom (rel : σ → ι → σ → Prop) (s : σ) : List ι → σ → Prop
  /-- Nothing has been accepted. -/
  | nil : RunFrom rel s [] s
  /-- One more input was accepted. -/
  | snoc {log : List ι} {t t' : σ} {i : ι} (run : RunFrom rel s log t) (accept : rel t i t') :
    RunFrom rel s (log ++ [i]) t'

namespace RunFrom

variable {rel : σ → ι → σ → Prop}

/-- A step before a run. -/
theorem cons {s s' t : σ} {i : ι} {log : List ι} (h : rel s i s')
    (hrun : RunFrom rel s' log t) : RunFrom rel s (i :: log) t := by
  induction hrun with
  | nil => exact snoc .nil h
  | snoc _ haccept ih => exact snoc ih haccept

/-- Nothing happens in an empty run. -/
theorem eq_of_nil {s t : σ} (h : RunFrom rel s [] t) : t = s := by
  generalize hlog : ([] : List ι) = whole at h
  cases h with
  | nil => rfl
  | snoc _ _ => simp at hlog

/-- A run that is not empty begins with a step. -/
theorem cases_cons {s t : σ} {i : ι} {log : List ι} (hrun : RunFrom rel s (i :: log) t) :
    ∃ s', rel s i s' ∧ RunFrom rel s' log t := by
  generalize hlog : i :: log = whole at hrun
  induction hrun generalizing log with
  | nil => simp at hlog
  | @snoc before u u' j hbefore haccept ih =>
    cases before with
    | nil =>
      obtain rfl := hbefore.eq_of_nil
      simp only [List.nil_append, List.cons.injEq] at hlog
      obtain ⟨rfl, rfl⟩ := hlog
      exact ⟨_, haccept, .nil⟩
    | cons k before =>
      simp only [List.cons_append, List.cons.injEq] at hlog
      obtain ⟨rfl, rfl⟩ := hlog
      obtain ⟨s', hs', hrest⟩ := ih rfl
      exact ⟨s', hs', hrest.snoc haccept⟩

/-- Two runs, one after the other. -/
theorem append {s t u : σ} {before after : List ι} (h : RunFrom rel s before t)
    (h' : RunFrom rel t after u) : RunFrom rel s (before ++ after) u := by
  induction h' with
  | nil => simpa using h
  | snoc _ haccept ih =>
    rw [← List.append_assoc]
    exact ih.snoc haccept

/-- A log splits at every point, at the state reached there. -/
theorem split {s t : σ} {before after : List ι} (h : RunFrom rel s (before ++ after) t) :
    ∃ u, RunFrom rel s before u ∧ RunFrom rel u after t := by
  induction before generalizing s with
  | nil => exact ⟨s, .nil, h⟩
  | cons i before ih =>
    obtain ⟨s', hs', hrest⟩ := h.cases_cons
    obtain ⟨u, hbefore, hafter⟩ := ih hrest
    exact ⟨u, hbefore.cons hs', hafter⟩

/-- A run that is not empty ends with a step. -/
theorem cases_snoc {s t : σ} {i : ι} {log : List ι} (h : RunFrom rel s (log ++ [i]) t) :
    ∃ u, RunFrom rel s log u ∧ rel u i t := by
  obtain ⟨u, hlog, hlast⟩ := h.split
  obtain ⟨v, hv, hnil⟩ := hlast.cases_cons
  exact ⟨u, hlog, hnil.eq_of_nil ▸ hv⟩

/-- Every entry of a log was accepted in the state its prefix leads to. -/
theorem at_index {s t : σ} {log : List ι} (h : RunFrom rel s log t) {k : Nat} {i : ι}
    (hk : log[k]? = some i) : ∃ u u', RunFrom rel s (log.take k) u ∧ rel u i u' ∧
      RunFrom rel u' (log.drop (k + 1)) t := by
  rw [← log_split hk] at h
  obtain ⟨u, hbefore, hrest⟩ := h.split
  obtain ⟨u', hu', hafter⟩ := hrest.cases_cons
  exact ⟨u, u', hbefore, hu', hafter⟩

/-- What one accepted step preserves holds of every state a log leads to. -/
theorem invariant {P : σ → Prop} {s t : σ} {log : List ι} (h : RunFrom rel s log t)
    (hinit : P s) (hstep : ∀ u i u', P u → rel u i u' → P u') : P t := by
  induction h with
  | nil => exact hinit
  | snoc _ haccept ih => exact hstep _ _ _ ih haccept

/-- A machine that simulates another, step by step along its runs, has its runs. -/
theorem simulate (rel' : τ → κ → τ → Prop) (abs : σ → τ) (label : ι → κ) {s t : σ}
    {log : List ι} (h : RunFrom rel s log t)
    (hstep : ∀ log u i u', RunFrom rel s log u → RunFrom rel' (abs s) (log.map label) (abs u) →
      rel u i u' → rel' (abs u) (label i) (abs u')) :
    RunFrom rel' (abs s) (log.map label) (abs t) := by
  induction h with
  | nil => exact .nil
  | snoc hrun haccept ih =>
    rw [List.map_append]
    exact ih.snoc (hstep _ _ _ _ hrun ih haccept)

end RunFrom

/-! ## Offers -/

variable (step : σ → ι → Outcome ε σ)

/-- One accepted input. -/
def Accepts (s : σ) (i : ι) (s' : σ) : Prop := step s i = .ok s'

/-- Offer one input: a refused one leaves the state as it was. -/
def offer (s : σ) (i : ι) : σ :=
  match step s i with
  | .ok s' => s'
  | .error _ => s

/-- The state after a sequence of offers. -/
def replay (s : σ) (inputs : List ι) : σ := inputs.foldl (offer step) s

/-- The inputs a sequence of offers had accepted. -/
def accepted (s : σ) : List ι → List ι
  | [] => []
  | i :: inputs =>
    match step s i with
    | .ok s' => i :: accepted s' inputs
    | .error _ => accepted s inputs

variable {step}

/-- An offer is accepted or changes nothing. -/
theorem offer_cases (s : σ) (i : ι) : Accepts step s i (offer step s i) ∨ offer step s i = s := by
  rw [offer]
  cases h : step s i with
  | ok s' => exact .inl h
  | error e => exact .inr rfl

/-- The accepted inputs of a sequence of offers are a log to the state it ends in. -/
theorem run_replay (inputs : List ι) : ∀ s : σ,
    RunFrom (Accepts step) s (accepted step s inputs) (replay step s inputs) := by
  induction inputs with
  | nil => exact fun s => .nil
  | cons i inputs ih =>
    intro s
    rw [accepted, replay, List.foldl_cons, offer]
    cases h : step s i with
    | ok s' => exact (ih s').cons h
    | error e => exact ih s

/-- A log determines the state it leads to. -/
theorem RunFrom.functional {s t t' : σ} {log : List ι} (h : RunFrom (Accepts step) s log t)
    (h' : RunFrom (Accepts step) s log t') : t = t' := by
  induction log generalizing s with
  | nil => rw [h.eq_of_nil, h'.eq_of_nil]
  | cons i log ih =>
    obtain ⟨u, hu, hrest⟩ := h.cases_cons
    obtain ⟨u', hu', hrest'⟩ := h'.cases_cons
    obtain rfl : u = u' := Except.ok.inj (hu.symm.trans hu')
    exact ih hrest hrest'

theorem replay_append (s : σ) (before after : List ι) :
    replay step s (before ++ after) = replay step (replay step s before) after :=
  List.foldl_append ..

/-- What is accepted of a log, in two parts. -/
theorem accepted_append (before after : List ι) : ∀ s : σ,
    accepted step s (before ++ after) =
      accepted step s before ++ accepted step (replay step s before) after := by
  induction before with
  | nil => exact fun s => rfl
  | cons i before ih =>
    intro s
    rw [List.cons_append, accepted, accepted, replay, List.foldl_cons, offer]
    cases h : step s i with
    | ok s' => exact congrArg (i :: ·) (ih s')
    | error e => exact ih s

/-- Offering a log again leads to the same state. -/
theorem RunFrom.replay_eq {s t : σ} {log : List ι} (h : RunFrom (Accepts step) s log t) :
    replay step s log = t := by
  induction h with
  | nil => rfl
  | @snoc log u u' i _ haccept ih =>
    rw [replay_append, ih]
    change offer step u i = u'
    rw [offer, show step u i = .ok u' from haccept]

end Machine
