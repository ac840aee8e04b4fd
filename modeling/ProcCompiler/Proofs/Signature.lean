import ProcCompiler.Signature
/-!
# The size of a signature

Every declared argument has a positive size, but the sizes are added up in a signed word of 64 bits,
and nothing bounds their sum. The size of a signature is the sum exactly as long as the sum is below
`sizeLimit`. The argument that takes the sum past the limit makes the size negative.

* `declareEach`, `accepted`: arguments declared in turn, without those that are refused.
* `args_declareEach`, `accepted_pos`: what a signature holds after all of them.
* `size_eq_totalSize_iff`: when the size is the sum.
* `size_of_accepted`: the size after any declarations.
* `size_wraps`: two arguments whose sizes do not fit together.
-/
namespace ProcCompiler.Signature

/-- The first number that a signed word of 64 bits cannot hold. -/
def sizeLimit : Int := 0x8000000000000000

/-! ## Declarations in turn -/

theorem declare_eq_ok {s t : Signature} {a : Argument} (h : s.declare a = .ok t) :
    0 < a.size ∧ t = { s with args := s.args ++ [a] } := by
  unfold declare at h
  split at h
  · cases h
  · rename_i hsize
    split at h
    · cases h
    · cases h
      exact ⟨Int.not_le.mp hsize, rfl⟩

/-- Declares arguments in turn. One that is refused leaves the signature as it is. -/
def declareEach (s : Signature) : List Argument → Signature
  | [] => s
  | a :: as =>
    match s.declare a with
    | .ok t => t.declareEach as
    | .error _ => s.declareEach as

/-- The arguments that are not refused. -/
def accepted (s : Signature) : List Argument → List Argument
  | [] => []
  | a :: as =>
    match s.declare a with
    | .ok t => a :: t.accepted as
    | .error _ => s.accepted as

theorem args_declareEach (s : Signature) (calls : List Argument) :
    (s.declareEach calls).args = s.args ++ s.accepted calls := by
  induction calls generalizing s with
  | nil => simp [declareEach, accepted]
  | cons a calls ih =>
    rw [declareEach, accepted]
    split
    · rename_i t ht
      rw [ih, (declare_eq_ok ht).2]
      simp
    · exact ih s

theorem accepted_pos {s : Signature} {calls : List Argument} :
    ∀ a ∈ s.accepted calls, 0 < a.size := by
  induction calls generalizing s with
  | nil => simp [accepted]
  | cons b calls ih =>
    rw [accepted]
    split
    · rename_i t ht
      rintro a (_ | ⟨_, ha⟩)
      · exact (declare_eq_ok ht).1
      · exact ih a ha
    · exact ih

/-! ## Sums -/

theorem totalSize_append (as bs : List Argument) :
    totalSize (as ++ bs) = totalSize as + totalSize bs := by
  induction as with
  | nil => simp [totalSize]
  | cons a as ih => simp only [List.cons_append, totalSize, ih, Int.add_assoc]

theorem totalSize_nonneg {as : List Argument} (h : ∀ a ∈ as, 0 < a.size) : 0 ≤ totalSize as := by
  induction as with
  | nil => exact Int.le_refl 0
  | cons a as ih =>
    have := h a List.mem_cons_self
    have := ih fun b hb => h b (List.mem_cons_of_mem _ hb)
    rw [totalSize]
    omega

/-- One of several positive sizes is no larger than their sum. -/
theorem le_totalSize {as : List Argument} (h : ∀ a ∈ as, 0 < a.size) {a : Argument} (ha : a ∈ as) :
    a.size ≤ totalSize as := by
  obtain ⟨before, after, rfl⟩ := List.append_of_mem ha
  have := totalSize_nonneg fun b hb => h b (List.mem_append_left _ hb)
  have := totalSize_nonneg fun b hb => h b (List.mem_append_right _ (List.mem_cons_of_mem _ hb))
  rw [totalSize_append, totalSize]
  omega

/-- A sum that is not negative is held by a word exactly if it is below the limit. -/
theorem size_eq_totalSize_iff {s : Signature} (h : 0 ≤ totalSize s.args) :
    s.size = totalSize s.args ↔ totalSize s.args < sizeLimit := by
  rw [size, Int.bmod_def, sizeLimit]
  constructor
  · intro he
    split at he <;> omega
  · intro hlt
    split <;> omega

/-- A sum of two sizes that both fit becomes negative if it does not fit. -/
theorem size_neg {s : Signature} (hlow : sizeLimit ≤ totalSize s.args)
    (hhigh : totalSize s.args < 2 * sizeLimit) :
    s.size < 0 := by
  rw [sizeLimit] at hlow hhigh
  rw [size, Int.bmod_def]
  split <;> omega

/-! ## The size after any declarations -/

/-- The size after any declarations is the sum of the accepted sizes if and only if the sum is below
the limit. It is then not negative and not smaller than any single size. One more argument makes it
larger if the sum stays below the limit, and negative if not. -/
theorem size_of_accepted (name : String) (calls : List Argument) :
    ((declareEach { name } calls).size = totalSize (accepted { name } calls) ↔
      totalSize (accepted { name } calls) < sizeLimit) ∧
    (totalSize (accepted { name } calls) < sizeLimit →
      0 ≤ (declareEach { name } calls).size ∧
      (∀ a ∈ accepted { name } calls, a.size ≤ (declareEach { name } calls).size) ∧
      ∀ a t, (declareEach { name } calls).declare a = .ok t → a.size < sizeLimit →
        (totalSize (accepted { name } calls) + a.size < sizeLimit ∧
          (declareEach { name } calls).size < t.size) ∨
        (sizeLimit ≤ totalSize (accepted { name } calls) + a.size ∧ t.size < 0)) := by
  have hargs : (declareEach { name } calls).args = accepted { name } calls := args_declareEach _ _
  have hpos : 0 ≤ totalSize (accepted { name } calls) := totalSize_nonneg accepted_pos
  have hiff := size_eq_totalSize_iff (s := declareEach { name } calls) (hargs ▸ hpos)
  rw [hargs] at hiff
  refine ⟨hiff, fun hfits => ?_⟩
  have hsize := hiff.mpr hfits
  refine ⟨hsize ▸ hpos, fun a ha => hsize ▸ le_totalSize accepted_pos ha, fun a t ht hword => ?_⟩
  obtain ⟨ha, rfl⟩ := declare_eq_ok ht
  have hsum : totalSize ((declareEach { name } calls).args ++ [a]) =
      totalSize (accepted { name } calls) + a.size := by
    rw [totalSize_append, hargs, totalSize, totalSize, Int.add_zero]
  by_cases hlimit : totalSize (accepted { name } calls) + a.size < sizeLimit
  · refine .inl ⟨hlimit, ?_⟩
    rw [hsize, (size_eq_totalSize_iff (by rw [hsum]; omega)).mpr (by rw [hsum]; exact hlimit), hsum]
    omega
  · refine .inr ⟨Int.not_lt.mp hlimit, size_neg ?_ ?_⟩
    · rw [hsum]; exact Int.not_lt.mp hlimit
    · rw [hsum]; omega

/-- Two arguments, and between them one whose name is taken and one without a size. -/
def fittingCalls : List Argument :=
  [⟨"src", .ref, 8⟩, ⟨"src", .out, 4⟩, ⟨"none", .ref, 0⟩, ⟨"dst", .out, 0x7FFFFFFFFFFFFFF0⟩]

theorem size_of_accepted_fitting :
    totalSize (accepted { name := "copy" } fittingCalls) < sizeLimit ∧
    (declareEach { name := "copy" } fittingCalls).size = 0x7FFFFFFFFFFFFFF8 ∧
    (∀ a ∈ accepted { name := "copy" } fittingCalls, a.size ≤
      (declareEach { name := "copy" } fittingCalls).size) := by
  have hfits : totalSize (accepted { name := "copy" } fittingCalls) < sizeLimit := by decide
  obtain ⟨hiff, hthen⟩ := size_of_accepted "copy" fittingCalls
  exact ⟨hfits, hiff.mpr hfits, (hthen hfits).2.1⟩

/-- Two sizes whose sum is the limit. -/
def wrappingCalls : List Argument := [⟨"a", .ref, 0x7FFFFFFFFFFFFFFF⟩, ⟨"b", .ref, 1⟩]

/-- Both are accepted, and the size of the signature is negative: it is smaller than either of them,
and smaller than it was before the second one. -/
theorem size_wraps : accepted { name := "p" } wrappingCalls = wrappingCalls ∧
    totalSize wrappingCalls = sizeLimit ∧
    (declareEach { name := "p" } wrappingCalls).size = -sizeLimit ∧
    (declareEach { name := "p" } (wrappingCalls.take 1)).size = 0x7FFFFFFFFFFFFFFF := by
  decide

end ProcCompiler.Signature
