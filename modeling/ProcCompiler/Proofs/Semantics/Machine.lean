import Mathlib.Data.List.Basic
/-!
# Machines and what they show

A machine takes one step after another until it halts or is stuck. A step may show an event. Two
machines behave the same if they show the same events, halt after the same events in the same world,
and are never stuck. For this it is enough that the second follows the first step by step
(`Follows`): for each step of the first it takes any number of steps that show the same, possibly
none, but never none forever.

A machine that may get stuck is made to halt there (`relaxed`), so that what holds of machines that
are never stuck can be used.

* `Follows.same`: a machine that follows another behaves the same.
* `Same.trans`: behaviour over several machines.
* `Follows.agrees`: the same for machines that may get stuck.
-/
namespace ProcCompiler

/-- What a machine does in a state. -/
inductive Next (σ ε : Type) where
  | halt
  | stuck
  | go (event : Option ε) (next : σ)

/-- A machine with events `ε` in a world `ω`. -/
structure Machine (σ ε ω : Type) where
  step : σ → Next σ ε
  world : σ → ω

namespace Machine

variable {σ τ υ ε ω : Type} {A : Machine σ ε ω} {B : Machine τ ε ω} {C : Machine υ ε ω}

/-- The machine gets from one state to another in so many steps and shows the events on the way. -/
inductive Runs (A : Machine σ ε ω) : Nat → σ → List ε → σ → Prop where
  | refl (s : σ) : Runs A 0 s [] s
  | step {n : Nat} {s s' s'' : σ} {event : Option ε} {es : List ε} (h : A.step s = .go event s')
      (hr : Runs A n s' es s'') : Runs A (n + 1) s (event.toList ++ es) s''

/-- The machine shows the events at some time, and no others before. -/
def Emits (A : Machine σ ε ω) (s : σ) (es : List ε) : Prop := ∃ n s', A.Runs n s es s'

/-- The machine halts in the world `w` after the events. -/
def Halts (A : Machine σ ε ω) (s : σ) (es : List ε) (w : ω) : Prop :=
  ∃ n s', A.Runs n s es s' ∧ A.step s' = .halt ∧ A.world s' = w

/-- The machine never gets stuck. -/
def Safe (A : Machine σ ε ω) (s : σ) : Prop := ∀ n es s', A.Runs n s es s' → A.step s' ≠ .stuck

/-- Two machines, each started in a state, show the same and never get stuck. -/
structure Same (A : Machine σ ε ω) (a : σ) (B : Machine τ ε ω) (b : τ) : Prop where
  emits : ∀ es, A.Emits a es ↔ B.Emits b es
  halts : ∀ es w, A.Halts a es w ↔ B.Halts b es w
  safe : A.Safe a ∧ B.Safe b

theorem Same.trans {a : σ} {b : τ} {c : υ} (h : A.Same a B b) (h' : B.Same b C c) :
    A.Same a C c where
  emits es := (h.emits es).trans (h'.emits es)
  halts es w := (h.halts es w).trans (h'.halts es w)
  safe := ⟨h.safe.1, h'.safe.2⟩

/-! ## Runs -/

namespace Runs

theorem single {s s' : σ} {event : Option ε} (h : A.step s = .go event s') :
    A.Runs 1 s event.toList s' := by
  simpa using Runs.step h (.refl s')

theorem silent {s s' : σ} (h : A.step s = .go none s') : A.Runs 1 s [] s' := single h

theorem trans {m n : Nat} {s s' s'' : σ} {es es' : List ε} (h : A.Runs m s es s')
    (h' : A.Runs n s' es' s'') :
    A.Runs (m + n) s (es ++ es') s'' := by
  induction h with
  | refl s => simpa using h'
  | step hs _ ih =>
    rw [Nat.add_right_comm, List.append_assoc]
    exact .step hs (ih h')

/-- Of two runs from a state, the longer one goes on from the shorter one. -/
theorem tail {m n : Nat} {s s' s'' : σ} {es es' : List ε} (h : A.Runs m s es s')
    (h' : A.Runs (m + n) s es' s'') : ∃ more, es' = es ++ more ∧ A.Runs n s' more s'' := by
  induction h generalizing es' with
  | refl s => exact ⟨es', rfl, by simpa using h'⟩
  | @step m s s₁ s' event es hs _ ih =>
    rw [Nat.add_right_comm] at h'
    cases h' with
    | step hs' hr =>
      cases hs.symm.trans hs'
      obtain ⟨more, rfl, hm⟩ := ih hr
      exact ⟨more, by rw [List.append_assoc], hm⟩

/-- A machine that halted takes no step. -/
theorem eq_zero_of_halt {n : Nat} {s s' : σ} {es : List ε} (h : A.Runs n s es s')
    (hs : A.step s = .halt) :
    n = 0 ∧ es = [] ∧ s' = s := by
  cases h with
  | refl => exact ⟨rfl, rfl, rfl⟩
  | step h' => rw [hs] at h'; cases h'

theorem not_stuck {n : Nat} {s s' : σ} {es : List ε} (h : A.Runs (n + 1) s es s') :
    A.step s ≠ .stuck := by
  cases h with
  | step h' => rw [h']; simp

end Runs

/-- Where so many steps lead, with the events on the way. -/
def run (A : Machine σ ε ω) : Nat → σ → Option (List ε × σ)
  | 0, s => some ([], s)
  | n + 1, s =>
    match A.step s with
    | .go event s' => (A.run n s').map fun r => (event.toList ++ r.1, r.2)
    | _ => none

theorem run_eq_some_iff {n : Nat} {s s' : σ} {es : List ε} :
    A.run n s = some (es, s') ↔ A.Runs n s es s' := by
  constructor
  · intro h
    induction n generalizing s es with
    | zero => cases h; exact .refl _
    | succ n ih =>
      rw [run] at h
      split at h
      · rename_i event t hs
        obtain ⟨⟨es, t⟩, hr, he⟩ := Option.map_eq_some_iff.mp h
        cases he
        exact .step hs (ih hr)
      · cases h
  · intro h
    induction h with
    | refl s => rfl
    | step hs _ ih => simp only [run, hs, ih, Option.map_some]

/-! ## A machine that follows another -/

/-- What the second machine does for a step of the first. -/
def Answers (A : Machine σ ε ω) (B : Machine τ ε ω) (R : σ → τ → Prop) (rank : σ → Nat) (a : σ)
    (b : τ) : Prop :=
  match A.step a with
  | .halt => ∃ n b', B.Runs n b [] b' ∧ B.step b' = .halt ∧ B.world b' = A.world a
  | .stuck => False
  | .go event a' => ∃ n b', B.Runs n b event.toList b' ∧ R a' b' ∧ (0 < n ∨ rank a' < rank a)

theorem answers_of_step {R : σ → τ → Prop} {rank : σ → Nat} {a a' : σ} {b b' : τ} {event : Option ε}
    (ha : A.step a = .go event a') (hb : B.step b = .go event b') (hr : R a' b') :
    A.Answers B R rank a b := by
  rw [Answers, ha]
  exact ⟨1, b', .single hb, hr, .inl Nat.one_pos⟩

theorem answers_of_halt {R : σ → τ → Prop} {rank : σ → Nat} {a : σ} {b : τ} (ha : A.step a = .halt)
    (hb : B.step b = .halt) (hw : B.world b = A.world a) : A.Answers B R rank a b := by
  rw [Answers, ha]
  exact ⟨0, b, .refl b, hb, hw⟩

/-- The second machine follows the first, as long as their states are related. -/
def Follows (A : Machine σ ε ω) (B : Machine τ ε ω) (R : σ → τ → Prop) (rank : σ → Nat) : Prop :=
  ∀ a b, R a b → A.Answers B R rank a b

/-- Where the first machine is known to be safe, there is nothing to answer when it is stuck. -/
theorem follows_of_safe {R : σ → τ → Prop} {rank : σ → Nat}
    (h : ∀ a b, R a b → A.step a ≠ .stuck → A.Answers B R rank a b) :
    A.Follows B (fun a b => R a b ∧ A.Safe a) rank := by
  rintro a b ⟨hr, hsafe⟩
  have ha := h a b hr (hsafe 0 [] a (.refl a))
  unfold Answers at ha ⊢
  cases hs : A.step a with
  | halt => rwa [hs] at ha
  | stuck => rwa [hs] at ha
  | go event a' =>
    rw [hs] at ha
    obtain ⟨n, b', hn, hr', hpos⟩ := ha
    exact ⟨n, b', hn, ⟨hr', fun m es s hm => hsafe _ _ s (.step hs hm)⟩, hpos⟩

namespace Follows

variable {R : σ → τ → Prop} {rank : σ → Nat} (h : A.Follows B R rank)

include h

theorem answers_halt {a : σ} {b : τ} (hr : R a b) (hs : A.step a = .halt) :
    ∃ n b', B.Runs n b [] b' ∧ B.step b' = .halt ∧ B.world b' = A.world a := by
  have := h a b hr
  rwa [Answers, hs] at this

theorem not_stuck {a : σ} {b : τ} (hr : R a b) : A.step a ≠ .stuck := by
  intro hs
  have := h a b hr
  rwa [Answers, hs] at this

theorem answers_go {a a' : σ} {b : τ} {event : Option ε} (hr : R a b)
    (hs : A.step a = .go event a') :
    ∃ n b', B.Runs n b event.toList b' ∧ R a' b' ∧ (0 < n ∨ rank a' < rank a) := by
  have := h a b hr
  rwa [Answers, hs] at this

/-- The second machine can follow every run of the first. -/
theorem runs {n : Nat} {a a' : σ} {b : τ} {es : List ε} (hr : R a b) (hn : A.Runs n a es a') :
    ∃ m b', B.Runs m b es b' ∧ R a' b' := by
  induction hn generalizing b with
  | refl a => exact ⟨0, b, .refl b, hr⟩
  | step hs _ ih =>
    obtain ⟨m, b₁, hm, hr₁, -⟩ := h.answers_go hr hs
    obtain ⟨k, b₂, hk, hr₂⟩ := ih hr₁
    exact ⟨m + k, b₂, hm.trans hk, hr₂⟩

/-- What a run of the second machine says about the first. Either the second machine is on its way
through the answer to one step of the first, where it can go on, or both have halted. The induction
is on the length of the run and, for answers without a step, on the rank. -/
theorem runs_back {m : Nat} {a : σ} {b b' : τ} {es : List ε} (hr : R a b) (hm : B.Runs m b es b') :
    A.Emits a es ∧ B.step b' ≠ .stuck ∧ (B.step b' = .halt → A.Halts a es (B.world b')) := by
  induction m using Nat.strongRecOn generalizing a b es with
  | ind m ihm =>
  induction hk : rank a using Nat.strongRecOn generalizing a b es with
  | ind k ihk =>
  cases hs : A.step a with
  | stuck => exact absurd hs (h.not_stuck hr)
  | halt =>
    obtain ⟨n, b₁, hn, hhalt, hw⟩ := h.answers_halt hr hs
    rcases Nat.lt_or_ge m n with hlt | hge
    · obtain ⟨d, rfl⟩ := Nat.exists_eq_add_of_lt hlt
      rw [Nat.add_assoc] at hn
      obtain ⟨more, he, hd⟩ := hm.tail hn
      obtain ⟨rfl, rfl⟩ := List.append_eq_nil_iff.mp he.symm
      refine ⟨⟨0, a, .refl a⟩, hd.not_stuck, fun hb' => ?_⟩
      have := (hd.eq_zero_of_halt hb').1
      omega
    · obtain ⟨d, rfl⟩ := Nat.exists_eq_add_of_le hge
      obtain ⟨more, rfl, hd⟩ := hn.tail hm
      obtain ⟨rfl, rfl, rfl⟩ := hd.eq_zero_of_halt hhalt
      refine ⟨⟨0, a, .refl a⟩, by rw [hhalt]; simp, fun _ => ⟨0, a, .refl a, hs, hw.symm⟩⟩
  | go event a₁ =>
    obtain ⟨n, b₁, hn, hr₁, hpos⟩ := h.answers_go hr hs
    rcases Nat.lt_or_ge m n with hlt | hge
    · obtain ⟨d, rfl⟩ := Nat.exists_eq_add_of_lt hlt
      rw [Nat.add_assoc] at hn
      obtain ⟨more, he, hd⟩ := hm.tail hn
      refine ⟨?_, hd.not_stuck, fun hb' => ?_⟩
      · cases es with
        | nil => exact ⟨0, a, .refl a⟩
        | cons e es =>
          cases event with
          | none => cases he
          | some e' =>
            cases es with
            | nil => cases he; exact ⟨1, a₁, .single hs⟩
            | cons => cases he
      · have := (hd.eq_zero_of_halt hb').1
        omega
    · obtain ⟨d, rfl⟩ := Nat.exists_eq_add_of_le hge
      obtain ⟨more, rfl, hd⟩ := hn.tail hm
      have ih : A.Emits a₁ more ∧ B.step b' ≠ .stuck ∧
          (B.step b' = .halt → A.Halts a₁ more (B.world b')) := by
        rcases Nat.eq_zero_or_pos n with rfl | hn0
        · rw [Nat.zero_add] at ihm ihk
          exact ihk (rank a₁) (by omega) hr₁ hd rfl
        · exact ihm d (by omega) hr₁ hd
      obtain ⟨⟨k, a₂, hk⟩, hstuck, hhalts⟩ := ih
      refine ⟨⟨k + 1, a₂, .step hs hk⟩, hstuck, fun hb' => ?_⟩
      obtain ⟨k, a₃, hk, hh, hw⟩ := hhalts hb'
      exact ⟨k + 1, a₃, .step hs hk, hh, hw⟩

/-- A machine that follows another behaves the same. -/
theorem same {a : σ} {b : τ} (hr : R a b) : A.Same a B b where
  emits es := by
    constructor
    · rintro ⟨n, a', hn⟩
      obtain ⟨m, b', hm, -⟩ := h.runs hr hn
      exact ⟨m, b', hm⟩
    · rintro ⟨m, b', hm⟩
      exact (h.runs_back hr hm).1
  halts es w := by
    constructor
    · rintro ⟨n, a', hn, hs, rfl⟩
      obtain ⟨m, b', hm, hr'⟩ := h.runs hr hn
      obtain ⟨k, b'', hk, hh, hw⟩ := h.answers_halt hr' hs
      exact ⟨m + k, b'', by simpa using hm.trans hk, hh, hw⟩
    · rintro ⟨m, b', hm, hh, rfl⟩
      exact (h.runs_back hr hm).2.2 hh
  safe := by
    refine ⟨fun n es a' hn => ?_, fun m es b' hm => (h.runs_back hr hm).2.1⟩
    obtain ⟨m, b', -, hr'⟩ := h.runs hr hn
    exact h.not_stuck hr'

/-- The second machine may first take steps that show nothing. -/
theorem ahead : A.Follows B (fun a b => ∃ n b', B.Runs n b [] b' ∧ R a b') rank := by
  rintro a b ⟨n, b₁, hn, hr⟩
  rw [Answers]
  cases hs : A.step a with
  | stuck => exact h.not_stuck hr hs
  | halt =>
    obtain ⟨m, b₂, hm, hh, hw⟩ := h.answers_halt hr hs
    exact ⟨n + m, b₂, hn.trans hm, hh, hw⟩
  | go event a' =>
    obtain ⟨m, b₂, hm, hr', hpos⟩ := h.answers_go hr hs
    refine ⟨n + m, b₂, hn.trans hm, ⟨0, b₂, .refl b₂, hr'⟩, ?_⟩
    exact hpos.imp_left fun hm => Nat.lt_of_lt_of_le hm (Nat.le_add_left m n)

end Follows

/-! ## Machines that may get stuck -/

/-- The machine gets stuck after the events. -/
def Sticks (A : Machine σ ε ω) (s : σ) (es : List ε) : Prop :=
  ∃ n s', A.Runs n s es s' ∧ A.step s' = .stuck

/-- Two machines, each started in a state, show the same, and halt or get stuck after the same
events. -/
structure Agrees (A : Machine σ ε ω) (a : σ) (B : Machine τ ε ω) (b : τ) : Prop where
  emits : ∀ es, A.Emits a es ↔ B.Emits b es
  halts : ∀ es w, A.Halts a es w ↔ B.Halts b es w
  sticks : ∀ es, A.Sticks a es ↔ B.Sticks b es

theorem Agrees.trans {a : σ} {b : τ} {c : υ} (h : A.Agrees a B b) (h' : B.Agrees b C c) :
    A.Agrees a C c where
  emits es := (h.emits es).trans (h'.emits es)
  halts es w := (h.halts es w).trans (h'.halts es w)
  sticks es := (h.sticks es).trans (h'.sticks es)

/-- The machine that halts where the given one is stuck, but in no world. -/
def relaxed (A : Machine σ ε ω) : Machine σ ε (Option ω) where
  step s :=
    match A.step s with
    | .halt => .halt
    | .stuck => .halt
    | .go event s' => .go event s'
  world s :=
    match A.step s with
    | .halt => some (A.world s)
    | .stuck => none
    | .go _ _ => some (A.world s)

theorem relaxed_go {s s' : σ} {event : Option ε} :
    A.relaxed.step s = .go event s' ↔ A.step s = .go event s' := by
  simp only [relaxed]
  cases A.step s <;> simp

theorem relaxed_halt {s : σ} {w : Option ω} : A.relaxed.step s = .halt ∧ A.relaxed.world s = w ↔
    A.step s = .halt ∧ some (A.world s) = w ∨ A.step s = .stuck ∧ none = w := by
  simp only [relaxed]
  cases A.step s <;> simp

theorem relaxed_runs {n : Nat} {s s' : σ} {es : List ε} :
    A.relaxed.Runs n s es s' ↔ A.Runs n s es s' := by
  constructor
  · intro h
    induction h with
    | refl s => exact .refl s
    | step hs _ ih => exact .step (relaxed_go.mp hs) ih
  · intro h
    induction h with
    | refl s => exact .refl s
    | step hs _ ih => exact .step (relaxed_go.mpr hs) ih

theorem relaxed_emits {s : σ} {es : List ε} : A.relaxed.Emits s es ↔ A.Emits s es := by
  simp only [Emits, relaxed_runs]

theorem relaxed_halts {s : σ} {es : List ε} {w : ω} :
    A.relaxed.Halts s es (some w) ↔ A.Halts s es w := by
  simp [Halts, relaxed_runs, relaxed_halt]

theorem relaxed_sticks {s : σ} {es : List ε} : A.relaxed.Halts s es none ↔ A.Sticks s es := by
  simp [Halts, Sticks, relaxed_runs, relaxed_halt]

/-- It is enough to answer the steps, if the second machine is stuck where the first is. -/
theorem follows_relaxed {R : σ → τ → Prop} {rank : σ → Nat}
    (h : ∀ a b, R a b → A.step a ≠ .stuck → A.Answers B R rank a b)
    (hstuck : ∀ a b, R a b → A.step a = .stuck → B.step b = .stuck) :
    A.relaxed.Follows B.relaxed R rank := by
  intro a b hr
  cases hs : A.step a with
  | stuck =>
    obtain ⟨ha, hw⟩ := relaxed_halt.mpr (.inr ⟨hs, rfl⟩)
    obtain ⟨hb, hw'⟩ := relaxed_halt.mpr (.inr ⟨hstuck a b hr hs, rfl⟩)
    exact answers_of_halt ha hb (hw'.trans hw.symm)
  | halt =>
    obtain ⟨ha, hw⟩ := relaxed_halt.mpr (.inl ⟨hs, rfl⟩)
    have hans := h a b hr (by rw [hs]; simp)
    rw [Answers, hs] at hans
    obtain ⟨n, b', hn, hb, hwb⟩ := hans
    obtain ⟨hb', hw'⟩ := relaxed_halt.mpr (.inl ⟨hb, rfl⟩)
    rw [Answers, ha]
    exact ⟨n, b', relaxed_runs.mpr hn, hb', by rw [hw', hw, hwb]⟩
  | go event a' =>
    have hans := h a b hr (by rw [hs]; simp)
    rw [Answers, hs] at hans
    obtain ⟨n, b', hn, hrest⟩ := hans
    rw [Answers, relaxed_go.mpr hs]
    exact ⟨n, b', relaxed_runs.mpr hn, hrest⟩

namespace Follows

variable {R : σ → τ → Prop} {rank : σ → Nat} (h : A.relaxed.Follows B.relaxed R rank) {a : σ}
  {b : τ} (hr : R a b)

include h hr

theorem runs_relaxed {n : Nat} {a' : σ} {es : List ε} (hn : A.Runs n a es a') :
    ∃ m b', B.Runs m b es b' ∧ R a' b' := by
  obtain ⟨m, b', hm, hr'⟩ := h.runs hr (relaxed_runs.mpr hn)
  exact ⟨m, b', relaxed_runs.mp hm, hr'⟩

theorem agrees : A.Agrees a B b where
  emits es := by rw [← relaxed_emits, (h.same hr).emits, relaxed_emits]
  halts es w := by rw [← relaxed_halts, (h.same hr).halts, relaxed_halts]
  sticks es := by rw [← relaxed_sticks, (h.same hr).halts, relaxed_sticks]

end Follows

end Machine

end ProcCompiler
