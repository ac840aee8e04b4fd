import Mathlib.Data.List.Basic
/-!
# Sequences of computations that may stop

What a successful `mapM`, `foldlM` or `forM` over a list says about its steps, and the converse.
-/
namespace ProcCompiler

variable {ε α β σ : Type}

/-- Reads a result off a computation that succeeds. -/
theorem exists_of_any {x : Except ε α} {p : α → Bool} (h : x.toOption.any p = true) :
    ∃ a, x = .ok a ∧ p a = true := by
  cases x with
  | error e => cases h
  | ok a => exact ⟨a, rfl, h⟩

theorem mapM_eq_ok {x : α → Except ε β} {y : α → β} :
    ∀ {as : List α}, (∀ a ∈ as, x a = .ok (y a)) → as.mapM x = .ok (as.map y)
  | [], _ => rfl
  | a :: as, h => by
    rw [List.mapM_cons, h a (by simp), mapM_eq_ok fun b hb => h b (by simp [hb])]
    rfl

theorem ok_of_mapM {x : α → Except ε β} :
    ∀ {as : List α} {bs : List β}, as.mapM x = .ok bs → ∀ a ∈ as, ∃ b ∈ bs, x a = .ok b
  | [], _, _, _, ha => by cases ha
  | a :: as, bs, h, c, hc => by
    rw [List.mapM_cons] at h
    cases ha : x a with
    | error e => rw [ha] at h; cases h
    | ok b =>
      rw [ha] at h
      cases has : as.mapM x with
      | error e => rw [has] at h; cases h
      | ok ds =>
        rw [has] at h
        cases h
        rcases List.mem_cons.mp hc with rfl | hc
        · exact ⟨b, by simp, ha⟩
        · obtain ⟨d, hd, hx⟩ := ok_of_mapM has c hc
          exact ⟨d, by simp [hd], hx⟩

theorem forM_eq_ok {x : α → Except ε Unit} :
    ∀ {as : List α}, (∀ a ∈ as, x a = .ok ()) → as.forM x = .ok ()
  | [], _ => rfl
  | a :: as, h => by
    show (x a >>= fun _ => as.forM x) = _
    rw [h a (by simp)]
    exact forM_eq_ok fun b hb => h b (by simp [hb])

theorem ok_of_forM {x : α → Except ε Unit} :
    ∀ {as : List α}, as.forM x = .ok () → ∀ a ∈ as, x a = .ok ()
  | [], _, _, ha => by cases ha
  | a :: as, h, b, hb => by
    have h : (x a >>= fun _ => as.forM x) = .ok () := h
    cases ha : x a with
    | error e => rw [ha] at h; cases h
    | ok u =>
      rw [ha] at h
      rcases List.mem_cons.mp hb with rfl | hb
      · exact ha
      · exact ok_of_forM h b hb

/-- An invariant of a fold that may stop. It may mention the items that are done; if every step
succeeds under it, the fold does. -/
theorem foldlM_ok (step : σ → α → Except ε σ) (Inv : List α → σ → Prop) (as : List α) (s : σ)
    (h0 : Inv [] s)
    (hstep : ∀ done a rest s, as = done ++ a :: rest → Inv done s →
      ∃ s', step s a = .ok s' ∧ Inv (done ++ [a]) s') :
    ∃ s', as.foldlM step s = .ok s' ∧ Inv as s' := by
  suffices key : ∀ rest done s, as = done ++ rest → Inv done s →
      ∃ s', rest.foldlM step s = .ok s' ∧ Inv as s' from key as [] s rfl h0
  intro rest
  induction rest with
  | nil => intro done s he h; exact ⟨s, rfl, by rwa [he, List.append_nil]⟩
  | cons a rest ih =>
    intro done s he h
    obtain ⟨s₁, h₁, hi₁⟩ := hstep done a rest s he h
    obtain ⟨s₂, h₂, hi₂⟩ := ih (done ++ [a]) s₁ (by simpa using he) hi₁
    exact ⟨s₂, by rw [List.foldlM_cons, h₁]; exact h₂, hi₂⟩

/-- What every step that succeeds keeps is kept by a fold that succeeds. -/
theorem foldlM_preserves {step : σ → α → Except ε σ} {P : σ → Prop} :
    ∀ {as : List α} {s s' : σ}, (∀ s, ∀ a ∈ as, ∀ s', P s → step s a = .ok s' → P s') →
      as.foldlM step s = .ok s' → P s → P s'
  | [], _, _, _, h, hs => by cases h; exact hs
  | a :: as, s, s', hstep, h, hs => by
    rw [List.foldlM_cons] at h
    cases ha : step s a with
    | error e => rw [ha] at h; cases h
    | ok s₁ =>
      rw [ha] at h
      exact foldlM_preserves (fun s b hb => hstep s b (List.mem_cons_of_mem _ hb)) h
        (hstep s a List.mem_cons_self s₁ hs ha)

/-- The invariant of a fold that cannot stop. -/
theorem foldl_inv (step : σ → α → σ) (Inv : List α → σ → Prop) (as : List α) (s : σ) (h0 : Inv [] s)
    (hstep : ∀ done a rest s, as = done ++ a :: rest → Inv done s → Inv (done ++ [a]) (step s a)) :
    Inv as (as.foldl step s) := by
  suffices key : ∀ rest done s, as = done ++ rest → Inv done s → Inv as (rest.foldl step s) from
    key as [] s rfl h0
  intro rest
  induction rest with
  | nil => intro done s he h; rwa [he, List.append_nil]
  | cons a rest ih =>
    intro done s he h
    exact ih (done ++ [a]) _ (by simpa using he) (hstep done a rest s he h)

end ProcCompiler
