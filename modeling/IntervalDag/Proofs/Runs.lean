import IntervalDag.Proofs.Checked

/-!
# Runs of commands

A system serves commands one after another until one of them meets a fault. A run is the fold of its step `next` over
the commands. Callers keep to a rule along a run if each command does when its turn comes (`Run.Keeps`).

* `Run.induct` goes through a run from its first command on.
* `Run.invariant`: what each command preserves, every run does.
* `Run.exists_of_progress`: if no command that keeps to the rule meets a fault, then no run does.

A system whose commands have answers collects them (`Run.collect`). The states it goes through are those of the run
without answers, so the same holds of it (`Run.invariant_collect`).
-/

namespace IntervalDag.Run

variable {α σ κ ω : Type}

/-- Each of the commands keeps to the rule when its turn comes. -/
def Keeps (next : σ → κ → Checked α σ) (rule : σ → κ → Prop) (s : σ) : List κ → Prop
  | [] => True
  | c :: cs => rule s c ∧ ∀ s', next s c = .ok s' → Keeps next rule s' cs

/-- A rule can be checked along a run. -/
instance instDecidableKeeps {next : σ → κ → Checked α σ} {rule : σ → κ → Prop} [∀ s c, Decidable (rule s c)] :
    (s : σ) → (cs : List κ) → Decidable (Keeps next rule s cs)
  | _, [] => isTrue trivial
  | s, c :: cs =>
    match h : next s c with
    | .ok s' =>
      have : Decidable (Keeps next rule s' cs) := instDecidableKeeps s' cs
      decidable_of_iff (rule s c ∧ Keeps next rule s' cs) (by simp [Keeps, h])
    | .error _ => decidable_of_iff (rule s c) (by simp [Keeps, h])

section

variable {next : σ → κ → Checked α σ} {R R' : σ → κ → Prop} {s s' : σ} {c : κ} {cs cs' : List κ}

/-- A run of commands is a command and a run of the others. -/
theorem cons_eq_ok : (c :: cs).foldlM next s = .ok s' ↔ ∃ s₁, next s c = .ok s₁ ∧ cs.foldlM next s₁ = .ok s' := by
  rw [List.foldlM_cons, Checked.bind_eq_ok]

/-- A run of more commands goes on from where the first ones lead. -/
theorem append_eq_ok :
    (cs ++ cs').foldlM next s = .ok s' ↔ ∃ s₁, cs.foldlM next s = .ok s₁ ∧ cs'.foldlM next s₁ = .ok s' := by
  rw [List.foldlM_append, Checked.bind_eq_ok]

/-- **Going through a run.** -/
theorem induct {motive : σ → List κ → Prop} (hrun : cs.foldlM next s = .ok s') (nil : motive s' [])
    (cons : ∀ s c s₁ cs, next s c = .ok s₁ → cs.foldlM next s₁ = .ok s' → motive s₁ cs → motive s (c :: cs)) :
    motive s cs := by
  induction cs generalizing s with
  | nil =>
    cases hrun
    exact nil
  | cons c cs ih =>
    obtain ⟨s₁, hc, hrest⟩ := cons_eq_ok.mp hrun
    exact cons s c s₁ cs hc hrest (ih hrest)

namespace Keeps

/-- A rule about commands alone is kept if each of them meets it. -/
theorem of_forall {P : κ → Prop} (h : ∀ c ∈ cs, P c) : Keeps next (fun _ => P) s cs := by
  induction cs generalizing s with
  | nil => trivial
  | cons c cs ih =>
    obtain ⟨hc, hcs⟩ := List.forall_mem_cons.mp h
    exact ⟨hc, fun _ _ => ih hcs⟩

/-- Without a rule there is nothing to keep to. -/
theorem of_true (s : σ) (cs : List κ) : Keeps next (fun _ _ => True) s cs := of_forall fun _ _ => trivial

theorem and (h : Keeps next R s cs) (h' : Keeps next R' s cs) :
    Keeps next (fun s c => R s c ∧ R' s c) s cs := by
  induction cs generalizing s with
  | nil => trivial
  | cons c cs ih => exact ⟨⟨h.1, h'.1⟩, fun s₁ hc => ih (h.2 s₁ hc) (h'.2 s₁ hc)⟩

end Keeps

/-- **Invariants.** What each command preserves, every run does. -/
theorem invariant {I : σ → Prop} (hstep : ∀ {s c s'}, I s → R s c → next s c = .ok s' → I s') (h : I s)
    (hcs : Keeps next R s cs) (hrun : cs.foldlM next s = .ok s') : I s' := by
  suffices hrest : I s → Keeps next R s cs → I s' from hrest h hcs
  exact induct (motive := fun s cs => I s → Keeps next R s cs → I s') hrun (fun h _ => h)
    fun s c s₁ cs hc _ ih h hcs => ih (hstep h hcs.1 hc) (hcs.2 s₁ hc)

/-- **Progress.** If each command that keeps to the rule is served, then every run of them is. -/
theorem exists_of_progress {I : σ → Prop} (hstep : ∀ {s c}, I s → R s c → ∃ s', next s c = .ok s' ∧ I s') (h : I s)
    (hcs : Keeps next R s cs) : ∃ s', cs.foldlM next s = .ok s' ∧ I s' := by
  induction cs generalizing s with
  | nil => exact ⟨s, rfl, h⟩
  | cons c cs ih =>
    obtain ⟨s₁, hc, h₁⟩ := hstep h hcs.1
    obtain ⟨s₂, hrest, h₂⟩ := ih h₁ (hcs.2 s₁ hc)
    exact ⟨s₂, cons_eq_ok.mpr ⟨s₁, hc, hrest⟩, h₂⟩

end

/-! ### Answers -/

/-- Serves commands one after another, and collects the answers. -/
def collect (serve : σ → κ → Checked α (σ × List ω)) (s : σ) : List κ → Checked α (σ × List ω)
  | [] => .ok (s, [])
  | c :: cs => do
    let (s, answers) ← serve s c
    let (s, rest) ← collect serve s cs
    return (s, answers ++ rest)

/-- The state that a command leaves. -/
def state (serve : σ → κ → Checked α (σ × List ω)) (s : σ) (c : κ) : Checked α σ := Prod.fst <$> serve s c

variable {serve : σ → κ → Checked α (σ × List ω)} {R : σ → κ → Prop} {s s' : σ} {c : κ} {cs : List κ}
  {answers : List ω}

theorem state_eq_ok : state serve s c = .ok s' ↔ ∃ answers, serve s c = .ok (s', answers) := by
  rw [state, Checked.map_eq_ok, Prod.exists]
  constructor
  · rintro ⟨_, answers, hserve, rfl⟩
    exact ⟨answers, hserve⟩
  · rintro ⟨answers, hserve⟩
    exact ⟨s', answers, hserve, rfl⟩

/-- The answers to a run are those to its first command and those to the others. -/
theorem collect_cons_eq_ok : collect serve s (c :: cs) = .ok (s', answers) ↔
    ∃ s₁ first rest, serve s c = .ok (s₁, first) ∧ collect serve s₁ cs = .ok (s', rest) ∧ answers = first ++ rest := by
  constructor
  · intro hrun
    obtain ⟨⟨s₁, first⟩, hserve, hrun⟩ := Checked.bind_eq_ok.mp hrun
    obtain ⟨⟨s₂, rest⟩, hrest, hrun⟩ := Checked.bind_eq_ok.mp hrun
    cases hrun
    exact ⟨s₁, first, rest, hserve, hrest, rfl⟩
  · rintro ⟨s₁, first, rest, hserve, hrest, rfl⟩
    exact Checked.bind_eq_ok.mpr ⟨(s₁, first), hserve, Checked.bind_eq_ok.mpr ⟨(s', rest), hrest, rfl⟩⟩

/-- Collecting answers changes no state. -/
theorem foldlM_of_collect (hrun : collect serve s cs = .ok (s', answers)) : cs.foldlM (state serve) s = .ok s' := by
  induction cs generalizing s answers with
  | nil =>
    cases hrun
    rfl
  | cons c cs ih =>
    obtain ⟨s₁, first, rest, hserve, hrest, -⟩ := collect_cons_eq_ok.mp hrun
    exact cons_eq_ok.mpr ⟨s₁, state_eq_ok.mpr ⟨first, hserve⟩, ih hrest⟩

/-- **Invariants** of a system that answers. -/
theorem invariant_collect {I : σ → Prop}
    (hstep : ∀ {s c s' answers}, I s → R s c → serve s c = .ok (s', answers) → I s') (h : I s)
    (hcs : Keeps (state serve) R s cs) (hrun : collect serve s cs = .ok (s', answers)) : I s' := by
  refine invariant (R := R) (fun h hc hserve => ?_) h hcs (foldlM_of_collect hrun)
  obtain ⟨answers, hserve⟩ := state_eq_ok.mp hserve
  exact hstep h hc hserve

end IntervalDag.Run
