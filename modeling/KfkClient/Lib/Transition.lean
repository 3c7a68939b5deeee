import Mathlib

/-!
# Runs of a transition function

`run step s es` performs the events `es` one after the other from `s`; it is
`none` as soon as one of them cannot happen. `Along P s es` says that every step
of that run is taken in a state where `P` allows it.

## Main results

- `Along.invariant` — what every allowed step preserves holds after every run
- `Along.simulates` — a run whose steps are matched by an abstract machine is
  matched as a whole
- `run_outputs` — what a list collects step by step is what the steps of the run give out
- `Along.iff_returns` — a run comes to its end with a property that cannot come back exactly
  when every step can be taken and keeps it
- `exists_changing_step` — what holds at the end and not at the start was brought about by
  one of the steps
- `run_forward` — every run of a machine is a run of another one that follows its steps
- `run_rel` — two machines whose steps keep their states related, or fail together,
  do so on whole runs
-/

namespace Transition

variable {σ ε : Type} {step : σ → ε → Option σ}

def run (step : σ → ε → Option σ) : σ → List ε → Option σ
  | s, [] => some s
  | s, e :: es => (step s e).bind fun s' => run step s' es

def Along (step : σ → ε → Option σ) (P : σ → ε → Prop) : σ → List ε → Prop
  | _, [] => True
  | s, e :: es => P s e ∧ ∀ s', step s e = some s' → Along step P s' es

@[simp] theorem run_nil (s : σ) : run step s [] = some s := rfl

theorem run_cons (s : σ) (e : ε) (es : List ε) :
    run step s (e :: es) = (step s e).bind fun s' => run step s' es := rfl

theorem run_cons_some {s m : σ} {e : ε} (h : step s e = some m) (es : List ε) :
    run step s (e :: es) = run step m es := by
  rw [run_cons, h, Option.bind_some]

theorem run_append (s : σ) (es fs : List ε) :
    run step s (es ++ fs) = (run step s es).bind fun s' => run step s' fs := by
  induction es generalizing s with
  | nil => rfl
  | cons e es ih =>
    rw [List.cons_append, run_cons, run_cons]
    cases hs : step s e with
    | none => rfl
    | some s' => simpa using ih s'

theorem run_snoc {s m s' : σ} {es : List ε} {e : ε} (h : run step s es = some m)
    (he : step m e = some s') : run step s (es ++ [e]) = some s' := by
  rw [run_append, h]
  show (step m e).bind (fun s' => run step s' []) = some s'
  rw [he]
  rfl

theorem run_cons_eq_some {s s' : σ} {e : ε} {es : List ε} (h : run step s (e :: es) = some s') :
    ∃ m, step s e = some m ∧ run step m es = some s' := by
  rw [run_cons] at h
  exact Option.bind_eq_some_iff.mp h

theorem Along.cons {P : σ → ε → Prop} {s m : σ} {e : ε} {es : List ε} (hP : P s e)
    (hs : step s e = some m) (h : Along step P m es) : Along step P s (e :: es) := by
  refine ⟨hP, ?_⟩
  intro s' hs'
  rw [hs] at hs'
  cases hs'
  exact h

/-- Invariant rule: a property of the first state that every allowed step
preserves holds wherever a run of allowed steps ends. -/
theorem Along.invariant {P : σ → ε → Prop} {I : σ → Prop}
    (hstep : ∀ s e s', I s → P s e → step s e = some s' → I s')
    {s s' : σ} {es : List ε} (hP : Along step P s es) (h0 : I s)
    (h : run step s es = some s') : I s' := by
  induction es generalizing s with
  | nil =>
    cases h
    exact h0
  | cons e es ih =>
    obtain ⟨m, hm, hr⟩ := run_cons_eq_some h
    exact ih (hP.2 m hm) (hstep s e m h0 hP.1 hm) hr

/-- Simulation rule: when every allowed step is matched by an abstract step
under the relation `R`, so is every run of allowed steps. -/
theorem Along.simulates {A : Type} {P : σ → ε → Prop} {g : A → ε → A} {R : σ → A → Prop}
    (hstep : ∀ s a e s', R s a → P s e → step s e = some s' → R s' (g a e))
    {s s' : σ} {a : A} {es : List ε} (hP : Along step P s es) (h0 : R s a)
    (h : run step s es = some s') : R s' (es.foldl g a) := by
  induction es generalizing s a with
  | nil =>
    cases h
    exact h0
  | cons e es ih =>
    obtain ⟨m, hm, hr⟩ := run_cons_eq_some h
    exact ih (hP.2 m hm) (hstep s a e m h0 hP.1 hm) hr

/-- What the steps of a run give out, one after the other. -/
def outputs {ω : Type} (step : σ → ε → Option σ) (out : σ → ε → Option ω) : σ → List ε → List ω
  | _, [] => []
  | s, e :: es => (out s e).toList ++ ((step s e).elim [] fun s' => outputs step out s' es)

/-- A list to which every step adds what it gives out lists what the run has given out. -/
theorem run_outputs {ω : Type} {out : σ → ε → Option ω} {I : σ → Prop} {f : σ → List ω}
    (hinv : ∀ s e s', I s → step s e = some s' → I s')
    (hstep : ∀ s e s', I s → step s e = some s' → f s' = f s ++ (out s e).toList)
    {s s' : σ} {es : List ε} (h0 : I s) (h : run step s es = some s') :
    f s' = f s ++ outputs step out s es := by
  induction es generalizing s with
  | nil =>
    cases h
    exact (List.append_nil _).symm
  | cons e es ih =>
    obtain ⟨m, hm, hr⟩ := run_cons_eq_some h
    rw [ih (hinv s e m h0 hm) hr, hstep s e m h0 hm, outputs, hm, Option.elim_some,
      List.append_assoc]

/-- A property that no step brings back holds at the start of a run if it holds at its
end. -/
theorem run_back {I Q : σ → Prop} (hinv : ∀ s e s', I s → step s e = some s' → I s')
    (hback : ∀ s e s', I s → step s e = some s' → Q s' → Q s) {s s' : σ} {es : List ε}
    (h0 : I s) (h : run step s es = some s') (hQ : Q s') : Q s := by
  induction es generalizing s with
  | nil =>
    cases h
    exact hQ
  | cons e es ih =>
    obtain ⟨m, hm, hr⟩ := run_cons_eq_some h
    exact hback s e m h0 hm (ih (hinv s e m h0 hm) hr)

/-- Exactness rule: when no step brings `Q` back, and a step can be taken and keeps `Q` exactly
when `P` allows it, then a run comes to its end with `Q` exactly when `P` allows every step. -/
theorem Along.iff_returns {P : σ → ε → Prop} {I Q : σ → Prop}
    (hinv : ∀ s e s', I s → step s e = some s' → I s')
    (hback : ∀ s e s', I s → step s e = some s' → Q s' → Q s)
    (hstep : ∀ s e, I s → Q s → ((∃ s', step s e = some s' ∧ Q s') ↔ P s e))
    {s : σ} {es : List ε} (h0 : I s) (hQ : Q s) :
    (∃ s', run step s es = some s' ∧ Q s') ↔ Along step P s es := by
  induction es generalizing s with
  | nil => exact ⟨fun _ => trivial, fun _ => ⟨s, rfl, hQ⟩⟩
  | cons e es ih =>
    constructor
    · rintro ⟨s', hrun, hlast⟩
      obtain ⟨m, hm, hr⟩ := run_cons_eq_some hrun
      have hI := hinv s e m h0 hm
      have hQm := run_back hinv hback hI hr hlast
      exact .cons ((hstep s e h0 hQ).mp ⟨m, hm, hQm⟩) hm ((ih hI hQm).mp ⟨s', hr, hlast⟩)
    · rintro ⟨hP, hrest⟩
      obtain ⟨m, hm, hQm⟩ := (hstep s e h0 hQ).mpr hP
      rw [run_cons_some hm]
      exact (ih (hinv s e m h0 hm) hQm).mpr (hrest m hm)

theorem exists_changing_step {R : σ → Prop} {s s' : σ} {es : List ε}
    (h : run step s es = some s') (h0 : ¬ R s) (h1 : R s') :
    ∃ es₁ e es₂ m m', es = es₁ ++ e :: es₂ ∧ run step s es₁ = some m ∧ step m e = some m' ∧
      ¬ R m ∧ R m' := by
  induction es generalizing s with
  | nil =>
    cases h
    exact absurd h1 h0
  | cons e es ih =>
    obtain ⟨m, hm, hr⟩ := run_cons_eq_some h
    by_cases hR : R m
    · exact ⟨[], e, es, s, m, rfl, rfl, hm, h0, hR⟩
    · obtain ⟨es₁, f, es₂, r, r', rfl, hrun, hf, hno, hyes⟩ := ih hr hR
      refine ⟨e :: es₁, f, es₂, r, r', rfl, ?_, hf, hno, hyes⟩
      rw [run_cons, hm, Option.bind_some, hrun]

theorem along_of_forall {P : ε → Prop} {es : List ε} (h : ∀ e ∈ es, P e) (s : σ) :
    Along step (fun _ e => P e) s es := by
  induction es generalizing s with
  | nil => trivial
  | cons e es ih =>
    refine ⟨h e List.mem_cons_self, ?_⟩
    intro s' _
    exact ih (fun e' he' => h e' (List.mem_cons_of_mem _ he')) s'

theorem run_invariant {I : σ → Prop} (hstep : ∀ s e s', I s → step s e = some s' → I s')
    {s s' : σ} {es : List ε} (h0 : I s) (h : run step s es = some s') : I s' :=
  (along_of_forall (P := fun _ => True) (fun _ _ => trivial) s).invariant
    (fun s e s' hI _ hs => hstep s e s' hI hs) h0 h

theorem rel_mono {α β : Type} {R S : α → β → Prop} (h : ∀ a b, R a b → S a b) {x : Option α}
    {y : Option β} (hR : Option.Rel R x y) : Option.Rel S x y := by
  cases hR with
  | none => exact .none
  | some hab => exact .some (h _ _ hab)

theorem rel_flip {α β : Type} {R : α → β → Prop} {x : Option α} {y : Option β}
    (h : Option.Rel R x y) : Option.Rel (fun b a => R a b) y x := by
  cases h with
  | none => exact .none
  | some hab => exact .some hab

theorem rel_bind {α β γ δ : Type} {R : α → β → Prop} {S : γ → δ → Prop} {x : Option α}
    {y : Option β} {f : α → Option γ} {g : β → Option δ} (h : Option.Rel R x y)
    (hf : ∀ a b, R a b → Option.Rel S (f a) (g b)) : Option.Rel S (x.bind f) (y.bind g) := by
  cases h with
  | none => exact .none
  | some hab => exact hf _ _ hab

theorem exists_of_rel_some {α β : Type} {R : α → β → Prop} {a : α} {y : Option β}
    (h : Option.Rel R (some a) y) : ∃ b, y = some b ∧ R a b := by
  cases h with
  | some hab => exact ⟨_, rfl, hab⟩

/-- Forward simulation rule: every run of the first machine is one of the second. -/
theorem run_forward {τ ε' : Type} {step' : τ → ε' → Option τ} {f : ε → ε'} {R : σ → τ → Prop}
    (hstep : ∀ a b e a', R a b → step a e = some a' → ∃ b', step' b (f e) = some b' ∧ R a' b')
    {es : List ε} {a a' : σ} {b : τ} (h : R a b) (hrun : run step a es = some a') :
    ∃ b', run step' b (es.map f) = some b' ∧ R a' b' := by
  induction es generalizing a b with
  | nil =>
    cases hrun
    exact ⟨b, rfl, h⟩
  | cons e es ih =>
    obtain ⟨m, hm, hr⟩ := run_cons_eq_some hrun
    obtain ⟨n, hn, hmn⟩ := hstep a b e m h hm
    obtain ⟨b', hb', hR⟩ := ih hmn hr
    exact ⟨b', by rw [List.map_cons, run_cons_some hn, hb'], hR⟩

/-- Bisimulation rule for two machines that take the same events. -/
theorem run_rel {τ : Type} {step' : τ → ε → Option τ} {P : ε → Prop} {R : σ → τ → Prop}
    (hstep : ∀ a b e, R a b → P e → Option.Rel R (step a e) (step' b e)) {es : List ε}
    (hP : ∀ e ∈ es, P e) {a : σ} {b : τ} (h : R a b) :
    Option.Rel R (run step a es) (run step' b es) := by
  induction es generalizing a b with
  | nil => exact .some h
  | cons e es ih =>
    rw [run_cons, run_cons]
    refine rel_bind (hstep a b e h (hP e List.mem_cons_self)) ?_
    intro a' b' h'
    exact ih (fun e' he' => hP e' (List.mem_cons_of_mem _ he')) h'

end Transition
